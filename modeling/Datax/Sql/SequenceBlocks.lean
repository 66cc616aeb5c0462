import Datax.Sql.Sequence

/-!
# Blocks of a sequence

While the numbers fit, the `m`-th increment stands for the `blockSize` values from the `m *
blockSize`-th on. A gateway holds a block through the reply to its increment, and then through
the block itself. No two gateways hold one block, and a value handed out lies before whatever is
still held of its block.
-/

namespace Datax.Sequence

open List

variable {a m : Nat} {b : SeqBlock}

section Blocks
variable {d : SequenceDescriptor}

structure BlockOf (d : SequenceDescriptor) (b : SeqBlock) (m a : Nat) : Prop where
  incr : b.incr = d.increment
  next : b.next.toInt = nth d a
  last : ∃ newLast : Int64, newLast.toInt = counterAfter d (m + 1) ∧
    b.last = if d.past newLast d.bound then d.bound else newLast
  low : m * blockSize d ≤ a

variable {n : Nat}

theorem nth_le_iff_of_pos (hpos : 0 < d.increment.toInt) :
    nth d a + d.increment.toInt ≤ nth d n ↔ a < n := by
  rw [← nth_succ, ← Nat.succ_le_iff]
  unfold nth
  rw [add_le_add_iff_left, mul_le_mul_iff_left₀ hpos, Nat.cast_le]

theorem le_nth_iff_of_neg (hneg : d.increment.toInt < 0) :
    nth d n ≤ nth d a + d.increment.toInt ↔ a < n := by
  rw [← nth_succ, ← Nat.succ_le_iff]
  unfold nth
  rw [add_le_add_iff_left, mul_le_mul_right_of_neg hneg, Nat.cast_le]

theorem BlockOf.usable_iff (hd : Normal d) (h : BlockOf d b m a) :
    usable d b = true ↔ a < (m + 1) * blockSize d ∧ ¬ Beyond d (nth d a) := by
  obtain ⟨newLast, hnew, hlast⟩ := h.last
  have hend := counterAfter_add hd (m + 1)
  have husable : usable d b = true ↔ ¬ d.past b.next b.last = true := by
    unfold usable
    rw [h.incr, beq_self_eq_true, Bool.true_and, Bool.not_eq_true', Bool.not_eq_true]
  rw [husable, hlast]
  by_cases hpos : 0 < d.increment.toInt
  · have hin := nth_le_iff_of_pos hpos (a := a) (n := (m + 1) * blockSize d)
    have hbeyond : Beyond d (nth d a) ↔ d.bound.toInt < nth d a := by
      rw [← h.next, ← past_bound_iff, past_iff_of_pos hpos]
    rw [past_iff_of_pos hpos, hbeyond, ← hin, h.next]
    split
    · rename_i hclip
      rw [past_iff_of_pos hpos] at hclip
      constructor <;> intro hx <;> omega
    · rename_i hclip
      rw [past_iff_of_pos hpos] at hclip
      constructor <;> intro hx <;> omega
  · have hneg : d.increment.toInt < 0 := lt_of_le_of_ne (not_lt.mp hpos) hd.increment
    have hin := le_nth_iff_of_neg hneg (a := a) (n := (m + 1) * blockSize d)
    have hbeyond : Beyond d (nth d a) ↔ nth d a < d.bound.toInt := by
      rw [← h.next, ← past_bound_iff, past_iff_of_nonpos hpos]
    rw [past_iff_of_nonpos hpos, hbeyond, ← hin, h.next]
    split
    · rename_i hclip
      rw [past_iff_of_nonpos hpos] at hclip
      constructor <;> intro hx <;> omega
    · rename_i hclip
      rw [past_iff_of_nonpos hpos] at hclip
      constructor <;> intro hx <;> omega

/-- The gateway may yet hand out the values of the `m`-th block from the `a`-th on. -/
def Holds (d : SequenceDescriptor) (gs : GatewayState) (m a : Nat) : Prop :=
  (∃ c newLast, gs.call = some c ∧ c.reply = some newLast ∧ newLast.toInt = counterAfter d (m + 1) ∧
      a = m * blockSize d) ∨
    (gs.call = none ∧ ∃ b, gs.block = some b ∧ BlockOf d b m a ∧ usable d b = true)

structure GatewayInv (d : SequenceDescriptor) (limitReached : Bool) (gs : GatewayState) : Prop where
  blocks : ∀ b, gs.block = some b → ∃ m a, BlockOf d b m a
  /-- A block is used up before another is asked for. -/
  calls : ∀ c, gs.call = some c → ∀ b, gs.block = some b → usable d b = false
  late : ∀ c, gs.call = some c → c.late = true → limitReached = true
  replies : ∀ c newLast, gs.call = some c → c.reply = some newLast →
    ∃ m, newLast.toInt = counterAfter d (m + 1) ∧
      (c.late = true → Beyond d (nth d (m * blockSize d)))

structure Inv (d : SequenceDescriptor) (s : State) : Prop where
  counter : s.counter = Int64.ofInt (counterAfter d s.increments)
  gateway : ∀ g, GatewayInv d s.limitReached (s.gateways g)
  held : ∀ g m a, Holds d (s.gateways g) m a → m < s.increments
  distinct : ∀ g g' m a a', Holds d (s.gateways g) m a → Holds d (s.gateways g') m a' → g = g'
  limit : s.limitReached = true → Beyond d (nth d (s.increments * blockSize d))
  returned : ∀ r ∈ s.returned, r.late = false ∧ ∃ i, r.value.toInt = nth d i ∧
    ¬ Beyond d (nth d i) ∧
    i < s.increments * blockSize d ∧
    ∀ g m a, Holds d (s.gateways g) m a → m * blockSize d ≤ i → i < (m + 1) * blockSize d → i < a
  unique : (s.returned.map Returned.value).Nodup

theorem counterAfter_inj (hd : Normal d) (h : counterAfter d m = counterAfter d n) : m = n := by
  have hnth : nth d (m * blockSize d) = nth d (n * blockSize d) := by
    rw [← counterAfter_add hd, ← counterAfter_add hd, h]
  exact Nat.eq_of_mul_eq_mul_right (blockSize_pos hd) (nth_inj hd hnth)

theorem BlockOf.unique (hd : Normal d) {m' a' : Nat} (h : BlockOf d b m a)
    (h' : BlockOf d b m' a') (hu : usable d b = true) : m' = m ∧ a' = a := by
  have ha : a' = a := nth_inj hd (h'.next.symm.trans h.next)
  subst ha
  have hhi := ((h.usable_iff hd).mp hu).1
  have hhi' := ((h'.usable_iff hd).mp hu).1
  have hm : m < m' + 1 := Nat.lt_of_mul_lt_mul_right (lt_of_le_of_lt h.low hhi')
  have hm' : m' < m + 1 := Nat.lt_of_mul_lt_mul_right (lt_of_le_of_lt h'.low hhi)
  exact ⟨by omega, rfl⟩

theorem toInt_first (hd : Normal d) {newLast : Int64} (h : newLast.toInt = counterAfter d (m + 1)) :
    (d.first newLast).toInt = nth d (m * blockSize d) := by
  rw [first_eq hd h]
  apply toInt_of_fits
  have hend := counterAfter_add hd (m + 1)
  have hlo := Int64.le_toInt newLast
  have hhi := Int64.toInt_lt newLast
  have hslo := Int64.le_toInt d.start
  have hshi := Int64.toInt_lt d.start
  have hpos := blockSize_pos hd
  have hlt : m * blockSize d < (m + 1) * blockSize d := by
    rw [Nat.succ_mul]
    omega
  have hm : (0 : Int) ≤ (m * blockSize d : Nat) := Int.natCast_nonneg _
  have hstart : nth d (m * blockSize d) =
      d.start.toInt + (m * blockSize d : Nat) * d.increment.toInt := rfl
  unfold fits
  rw [decide_eq_true_iff]
  rcases lt_or_gt_of_ne hd.increment with hneg | hgt
  · have hle := (le_nth_iff_of_neg hneg).mpr hlt
    have hmul : (m * blockSize d : Nat) * d.increment.toInt ≤ 0 :=
      mul_nonpos_of_nonneg_of_nonpos hm hneg.le
    constructor <;> omega
  · have hle := (nth_le_iff_of_pos hgt).mpr hlt
    have hmul : 0 ≤ (m * blockSize d : Nat) * d.increment.toInt := mul_nonneg hm hgt.le
    constructor <;> omega

end Blocks

/-! ## What a step keeps -/

section Steps
variable {d : SequenceDescriptor} {s s' : State} {g : Gateway}

theorem inv_created : Inv d (created d) := by
  have hnone : ∀ m a, ¬ Holds d {} m a := by
    rintro m a (⟨c, _, hc, _⟩ | ⟨_, b, hb, _⟩)
    · cases hc
    · cases hb
  constructor
  case counter =>
    have hzero : counterAfter d 0 = d.start.toInt - d.increment.toInt := by
      unfold counterAfter
      push_cast
      ring
    change d.start - d.increment = Int64.ofInt (counterAfter d 0)
    rw [hzero, Int64.ofInt_sub, Int64.ofInt_toInt, Int64.ofInt_toInt]
  case gateway =>
    intro g
    constructor
    case blocks =>
      intro b hb
      cases hb
    case calls | late =>
      intro c hc
      cases hc
    case replies =>
      intro c newLast hc
      cases hc
  case held =>
    intro g m a h
    exact absurd h (hnone m a)
  case distinct =>
    intro g g' m a a' h
    exact absurd h (hnone m a)
  case limit =>
    intro h
    cases h
  case returned =>
    intro r hr
    cases hr
  case unique => exact nodup_nil

theorem gateways_self (s : State) (g : Gateway) (gs : GatewayState) :
    (s.setGateway g gs).gateways g = gs := by
  change Function.update s.gateways g gs g = gs
  rw [Function.update_self]

theorem gateways_of_ne (s : State) {g g' : Gateway} (gs : GatewayState) (hne : g' ≠ g) :
    (s.setGateway g gs).gateways g' = s.gateways g' := by
  change Function.update s.gateways g gs g' = s.gateways g'
  rw [Function.update_of_ne hne]

variable {gs : GatewayState}

theorem holds_setGateway {g' : Gateway} (h : Holds d ((s.setGateway g gs).gateways g') m a) :
    g' = g ∧ Holds d gs m a ∨ g' ≠ g ∧ Holds d (s.gateways g') m a := by
  by_cases heq : g' = g
  · subst heq
    rw [gateways_self] at h
    exact .inl ⟨rfl, h⟩
  · rw [gateways_of_ne s gs heq] at h
    exact .inr ⟨heq, h⟩

theorem Inv.setGateway (h : Inv d s) (hgs : GatewayInv d s.limitReached gs) (g' : Gateway) :
    GatewayInv d s.limitReached ((s.setGateway g gs).gateways g') := by
  by_cases heq : g' = g
  · subst heq
    rw [gateways_self]
    exact hgs
  · rw [gateways_of_ne s gs heq]
    exact h.gateway g'

theorem Inv.letGo (h : Inv d s) (hgs : GatewayInv d s.limitReached gs)
    (hnone : ∀ m a, ¬ Holds d gs m a) : Inv d (s.setGateway g gs) := by
  have hkeep : ∀ {g' m a}, Holds d ((s.setGateway g gs).gateways g') m a →
      Holds d (s.gateways g') m a := by
    intro g' m a hh
    rcases holds_setGateway hh with ⟨_, hh⟩ | ⟨_, hh⟩
    · exact absurd hh (hnone m a)
    · exact hh
  exact { h with
    gateway := h.setGateway hgs
    held := by
      intro g' m a hh
      exact h.held g' m a (hkeep hh)
    distinct := by
      intro g' g'' m a a' hh hh'
      exact h.distinct g' g'' m a a' (hkeep hh) (hkeep hh')
    returned := by
      intro r hr
      obtain ⟨hl, i, hv, hb, hi, hbefore⟩ := h.returned r hr
      exact ⟨hl, i, hv, hb, hi, fun g' m a hh => hbefore g' m a (hkeep hh)⟩ }

section
variable (hd : Normal d) (h : Inv d s)
include hd h

theorem Inv.handOut (hb : BlockOf d b m a) (hu : usable d b = true)
    (hold : Holds d (s.gateways g) m a) (hfits : fits (b.next.toInt + d.increment.toInt) = true) :
    Inv d (s.handOut g b false) := by
  obtain ⟨hhi, hwithin⟩ := (hb.usable_iff hd).mp hu
  have hm := h.held g m a hold
  have hend : (m + 1) * blockSize d ≤ s.increments * blockSize d := Nat.mul_le_mul_right _ hm
  -- what is left of the block begins one value later
  have hnext : BlockOf d { b with next := b.next + b.incr } m (a + 1) := by
    refine ⟨hb.incr, ?_, hb.last, Nat.le_succ_of_le hb.low⟩
    have hsum : b.next + b.incr = Int64.ofInt (b.next.toInt + d.increment.toInt) := by
      rw [Int64.ofInt_add, Int64.ofInt_toInt, Int64.ofInt_toInt, hb.incr]
    rw [hsum, toInt_of_fits hfits, nth_succ, hb.next]
  have hkeep : ∀ {g' m' a'}, Holds d ((s.handOut g b false).gateways g') m' a' →
      g' = g ∧ m' = m ∧ a' = a + 1 ∨ g' ≠ g ∧ Holds d (s.gateways g') m' a' := by
    intro g' m' a' hh
    rcases holds_setGateway hh with ⟨heq, hh⟩ | hother
    · rcases hh with ⟨c, _, hc, _⟩ | ⟨_, b', hb', hof, hu'⟩
      · cases hc
      cases hb'
      obtain ⟨hm', ha'⟩ := hnext.unique hd hof hu'
      exact .inl ⟨heq, hm', ha'⟩
    · exact .inr hother
  have hnew : ∀ {g' m' a'}, Holds d (s.gateways g') m' a' → m' * blockSize d ≤ a →
      a < (m' + 1) * blockSize d →
      g' = g := by
    intro g' m' a' hh hlo' hhi'
    have h₁ : m < m' + 1 := Nat.lt_of_mul_lt_mul_right (lt_of_le_of_lt hb.low hhi')
    have h₂ : m' < m + 1 := Nat.lt_of_mul_lt_mul_right (lt_of_le_of_lt hlo' hhi)
    obtain rfl : m' = m := by omega
    exact h.distinct g' g m' a' a hh hold
  constructor
  case counter => exact h.counter
  case gateway =>
    refine h.setGateway ⟨?_, ?_, ?_, ?_⟩
    · intro b' hb'
      cases hb'
      exact ⟨m, a + 1, hnext⟩
    · simp
    · simp
    · simp
  case held =>
    intro g' m' a' hh
    rcases hkeep hh with ⟨_, rfl, _⟩ | ⟨_, hh⟩
    · exact hm
    · exact h.held g' m' a' hh
  case distinct =>
    intro g₁ g₂ m' a₁ a₂ hh₁ hh₂
    rcases hkeep hh₁ with ⟨rfl, rfl, _⟩ | ⟨_, hold₁⟩
    · rcases hkeep hh₂ with ⟨rfl, _, _⟩ | ⟨_, hold₂⟩
      · rfl
      · exact h.distinct _ _ _ _ _ hold hold₂
    · rcases hkeep hh₂ with ⟨rfl, rfl, _⟩ | ⟨_, hold₂⟩
      · exact h.distinct _ _ _ _ _ hold₁ hold
      · exact h.distinct _ _ _ _ _ hold₁ hold₂
  case limit => exact h.limit
  case returned =>
    intro r hr
    rcases mem_cons.mp hr with rfl | hr
    · refine ⟨rfl, a, hb.next, hwithin, lt_of_lt_of_le hhi hend, ?_⟩
      intro g' m' a' hh hlo' hhi'
      rcases hkeep hh with ⟨_, _, rfl⟩ | ⟨hne, hh⟩
      · exact Nat.lt_succ_self a
      · exact absurd (hnew hh hlo' hhi') hne
    · obtain ⟨hl, i, hv, hwithin', hi, hbefore⟩ := h.returned r hr
      refine ⟨hl, i, hv, hwithin', hi, ?_⟩
      intro g' m' a' hh hlo' hhi'
      rcases hkeep hh with ⟨_, rfl, rfl⟩ | ⟨_, hh⟩
      · exact Nat.lt_succ_of_lt (hbefore g m' a hold hlo' hhi')
      · exact hbefore g' m' a' hh hlo' hhi'
  case unique =>
    refine nodup_cons.mpr ⟨?_, h.unique⟩
    intro hmem
    obtain ⟨r, hr, hv⟩ := mem_map.mp hmem
    obtain ⟨_, i, hi, _, _, hbefore⟩ := h.returned r hr
    have hia : i = a := nth_inj hd (by rw [← hi, hv, hb.next])
    subst hia
    exact absurd (hbefore g m i hold hb.low hhi) (lt_irrefl i)

theorem inv_nextval (hg : exact d s (.nextval g) = true) (hs : s.nextval d g = some s') :
    Inv d s' := by
  unfold State.nextval at hs
  have hbegin : ∀ block, block = (s.gateways g).block → (∀ b, block = some b → usable d b = false) →
      Inv d (s.setGateway g ⟨block, some ⟨0, none, s.limitReached⟩⟩) := by
    intro block hblock hused
    refine h.letGo ⟨?_, ?_, ?_, ?_⟩ ?_
    · intro b hb
      exact (h.gateway g).blocks b (hblock ▸ hb)
    · intro _ _ b hb
      exact hused b hb
    · intro c hc hl
      cases hc
      exact hl
    · intro c newLast hc hr
      cases hc
      cases hr
    · rintro m a (⟨c, newLast, hc, hr, _⟩ | ⟨hc, _⟩)
      · cases hc
        cases hr
      · cases hc
  split at hs
  · cases hs
  · rename_i _ hblock
    cases hs
    refine hbegin none hblock.symm ?_
    simp
  · rename_i b hcall hblock
    split at hs
    · rename_i hu
      cases hs
      obtain ⟨m, a, hof⟩ := (h.gateway g).blocks b hblock
      refine h.handOut hd hof hu (.inr ⟨hcall, b, hblock, hof, hu⟩) ?_
      simpa [exact, hblock, hu] using hg
    · rename_i hu
      cases hs
      refine hbegin (some b) hblock.symm ?_
      intro b' hb'
      cases hb'
      exact (Bool.not_eq_true _).mp hu

theorem inv_increment (hg : exact d s (.increment g) = true) (hs : s.increment d g = some s') :
    Inv d s' := by
  obtain ⟨c, hcall, rfl⟩ := Option.map_eq_some_iff.mp hs
  have hcounter : s.counter + d.step = Int64.ofInt (counterAfter d (s.increments + 1)) := by
    rw [h.counter, ofInt_counterAfter_succ]
  have hlast : (s.counter + d.step).toInt = counterAfter d (s.increments + 1) := by
    rw [hcounter]
    exact toInt_of_fits hg
  have hgrow : s.increments * blockSize d ≤ (s.increments + 1) * blockSize d :=
    Nat.mul_le_mul_right _ (Nat.le_succ _)
  have hkeep : ∀ {g' m a}, Holds d ((s.setGateway g
      ⟨(s.gateways g).block, some { c with reply := some (s.counter + d.step) }⟩).gateways g') m a →
      g' = g ∧ m = s.increments ∨ g' ≠ g ∧ Holds d (s.gateways g') m a := by
    intro g' m a hh
    rcases holds_setGateway hh with ⟨heq, hh⟩ | hother
    · rcases hh with ⟨c', newLast, hc', hr, hnew, _⟩ | ⟨hc', _⟩
      · cases hc'
        cases hr
        have := counterAfter_inj hd (hnew.symm.trans hlast)
        exact .inl ⟨heq, by omega⟩
      · cases hc'
    · exact .inr hother
  constructor
  case counter => exact hcounter
  case gateway =>
    refine h.setGateway ⟨(h.gateway g).blocks, ?_, ?_, ?_⟩
    · intro _ _ b hb
      exact (h.gateway g).calls c hcall b hb
    · intro c' hc' hl
      cases hc'
      exact (h.gateway g).late c hcall hl
    · intro c' newLast hc' hr
      cases hc'
      cases hr
      exact ⟨s.increments, hlast, fun hl => h.limit ((h.gateway g).late c hcall hl)⟩
  case held =>
    intro g' m a hh
    rcases hkeep hh with ⟨_, rfl⟩ | ⟨_, hh⟩
    · exact Nat.lt_succ_self _
    · exact Nat.lt_succ_of_lt (h.held g' m a hh)
  case distinct =>
    intro g₁ g₂ m a₁ a₂ hh₁ hh₂
    rcases hkeep hh₁ with ⟨rfl, rfl⟩ | ⟨_, hold₁⟩
    · rcases hkeep hh₂ with ⟨rfl, _⟩ | ⟨_, hold₂⟩
      · rfl
      · exact absurd (h.held _ _ _ hold₂) (lt_irrefl _)
    · rcases hkeep hh₂ with ⟨rfl, rfl⟩ | ⟨_, hold₂⟩
      · exact absurd (h.held _ _ _ hold₁) (lt_irrefl _)
      · exact h.distinct _ _ _ _ _ hold₁ hold₂
  case limit =>
    intro hl
    exact (h.limit hl).mono hgrow
  case returned =>
    intro r hr
    obtain ⟨hl, i, hv, hwithin, hi, hbefore⟩ := h.returned r hr
    refine ⟨hl, i, hv, hwithin, lt_of_lt_of_le hi hgrow, ?_⟩
    intro g' m a hh hlo
    rcases hkeep hh with ⟨_, rfl⟩ | ⟨_, hh⟩
    · exact absurd hi (not_lt.mpr hlo)
    · exact hbefore g' m a hh hlo
  case unique => exact h.unique

end

theorem Inv.endCall (h : Inv d s) {c : Call} (hcall : (s.gateways g).call = some c) :
    Inv d (s.setGateway g ⟨(s.gateways g).block, none⟩) := by
  refine h.letGo ⟨(h.gateway g).blocks, ?_, ?_, ?_⟩ ?_
  · simp
  · simp
  · simp
  · rintro m a (⟨c', _, hc', _⟩ | ⟨_, b, hb, _, hu⟩)
    · cases hc'
    · simp [(h.gateway g).calls c hcall b hb] at hu

theorem inv_reply (hd : Normal d) (hcycle : d.cycle = false) (h : Inv d s)
    (hg : exact d s (.reply g) = true) (hs : s.reply d g = some s') : Inv d s' := by
  unfold State.reply at hs
  split at hs
  · rename_i attempt newLast late hcall
    obtain ⟨m, hlast, hlate⟩ := (h.gateway g).replies _ newLast hcall rfl
    have hold : Holds d (s.gateways g) m (m * blockSize d) :=
      .inl ⟨_, newLast, hcall, rfl, hlast, rfl⟩
    have hbeyond : d.past (d.first newLast) d.bound = true ↔
        Beyond d (nth d (m * blockSize d)) := by
      rw [past_bound_iff, toInt_first hd hlast]
    split at hs
    · rename_i hpast
      have hle : m * blockSize d ≤ s.increments * blockSize d :=
        Nat.mul_le_mul_right _ (h.held g m _ hold).le
      have hend := h.endCall hcall
      split at hs
      · cases hs
        exact { hend with
          gateway := fun g' => { hend.gateway g' with late := fun _ _ _ => rfl }
          limit := fun _ => (hbeyond.mp hpast).mono hle }
      · rename_i hno
        rw [hcycle] at hno
        exact absurd rfl hno
    · rename_i hpast
      have hnot := mt hbeyond.mpr hpast
      obtain rfl : late = false := by
        cases late with
        | false => rfl
        | true => exact absurd (hlate rfl) hnot
      cases hs
      have hof : BlockOf d (newBlock d newLast) m (m * blockSize d) :=
        ⟨rfl, toInt_first hd hlast, ⟨newLast, hlast, rfl⟩, le_refl _⟩
      have hroom : m * blockSize d < (m + 1) * blockSize d :=
        Nat.mul_lt_mul_of_pos_right (Nat.lt_succ_self m) (blockSize_pos hd)
      refine h.handOut hd hof ((hof.usable_iff hd).mpr ⟨hroom, hnot⟩) hold ?_
      change fits ((d.first newLast).toInt + d.increment.toInt) = true
      simpa [exact, hcall, hpast] using hg
  · cases hs

theorem inv_step (hd : Normal d) (hcycle : d.cycle = false) {a : Action} (h : Inv d s)
    (hg : exact d s a = true) (hs : stepOf d s a = some s') : Inv d s' := by
  cases a with
  | nextval g => exact inv_nextval hd h hg hs
  | increment g => exact inv_increment hd h hg hs
  | reply g => exact inv_reply hd hcycle h hg hs
  | fail g =>
    obtain ⟨c, hcall, rfl⟩ := Option.map_eq_some_iff.mp hs
    exact h.endCall hcall

theorem Inv.sound (hd : Normal d) (h : Inv d s) : Sound d s := { h with
  bounds := by
    intro r hr
    obtain ⟨_, i, hv, hwithin, _⟩ := h.returned r hr
    rw [Int64.le_iff_toInt_le, Int64.le_iff_toInt_le, hv]
    exact within_of_not_beyond hd hwithin
  congruent := by
    intro r hr
    obtain ⟨_, i, hv, _⟩ := h.returned r hr
    refine ⟨i, ?_⟩
    rw [hv]
    unfold nth
    ring
  final := fun r hr => (h.returned r hr).1 }

/-- In every run of steps whose numbers fit, the values are unique, in bounds and in the
sequence, and after the bound was met no new block is found. -/
theorem nextval_sound (d₀ : SequenceDescriptor) (minSet maxSet startSet : Bool)
    (hnorm : d₀.normalize minSet maxSet startSet = .ok d) (hcycle : d.cycle = false)
    {actions : List Action}
    (hguard : Runs.Guarded (stepOf d) (fun s a => exact d s a = true) (created d) actions)
    (hrun : Runs.run (stepOf d) (created d) actions = some s) : Sound d s :=
  have hd := normal_of_normalize hnorm
  (Runs.invariant_of_run (fun _ _ _ h hg hs => inv_step hd hcycle h hg hs) inv_created hguard
    hrun).sound hd

end Steps

section Examples

private def violates (d : SequenceDescriptor) (s : State) : Bool :=
  s.returned.any (fun r => decide (r.value < d.minValue) || r.late) ||
    !decide (s.returned.map Returned.value).Nodup

/-- The descriptor is accepted and does not cycle, and the run breaks the promise. -/
def Breaks (d : SequenceDescriptor) (actions : List Action) : Prop :=
  d.normalize true true true = .ok d ∧ d.cycle = false ∧
    ∃ s, Runs.run (stepOf d) (created d) actions = some s ∧ ¬ Sound d s

private theorem breaks_of_run {d : SequenceDescriptor} {actions : List Action}
    (hnorm : d.normalize true true true = .ok d) (hcycle : d.cycle = false)
    (h : ∃ s, Runs.run (stepOf d) (created d) actions = some s ∧ violates d s = true) :
    Breaks d actions := by
  refine ⟨hnorm, hcycle, Runs.exists_of_run _ h fun s _ hs hsound => ?_⟩
  rcases Bool.or_eq_true_iff.mp hs with hbad | hdup
  · obtain ⟨r, hr, hbad⟩ := any_eq_true.mp hbad
    rcases Bool.or_eq_true_iff.mp hbad with hlow | hlate
    · exact absurd (of_decide_eq_true hlow) (Int64.not_lt.mpr (hsound.bounds r hr).1)
    · simp [hsound.final r hr] at hlate
  · simp [decide_eq_true hsound.unique] at hdup

private def ask (g : Gateway) : List Action := [.nextval g, .increment g, .reply g]

private def sequence (start increment maxValue cache : Int64) : SequenceDescriptor :=
  ⟨"s", start, increment, 1, maxValue, false, cache⟩

/-- A block of 32 that ends after the largest integer. -/
private def nearMax : SequenceDescriptor := sequence 9223372036854775800 1 Int64.maxValue 32

/-- Four steps of `2 ^ 62` are none. -/
private def wideSteps : SequenceDescriptor := sequence 1 4611686018427387904 Int64.maxValue 4

/-- The value after the largest integer is the smallest. -/
private def lastValue : SequenceDescriptor := sequence Int64.maxValue 1 Int64.maxValue 1

/-- The counter comes round after the bound was met. -/
private def comesRound : SequenceDescriptor := sequence 1 4611686018427387904 4611686018427387904 1

private def thirteen : SequenceDescriptor := sequence 1 3 13 2

private def sharedCounter : List Action :=
  ask 0 ++ [.nextval 1, .increment 1, .increment 1, .reply 1, .nextval 0] ++ ask 0 ++ ask 1

theorem nextval_sound_shared :
    ∃ s, Runs.run (stepOf thirteen) (created thirteen) sharedCounter = some s ∧
      s.returned.map Returned.value = [4, 13, 1] ∧ s.limitReached = true ∧ Sound thirteen s := by
  refine Runs.exists_of_run
    (fun s => s.returned.map Returned.value = [4, 13, 1] ∧ s.limitReached = true)
      (by decide +kernel) ?_
  exact fun s hrun hs =>
    ⟨hs.1, hs.2, nextval_sound thirteen true true true rfl rfl (by decide +kernel) hrun⟩

/-- A block that wraps around, a step that wraps to nothing and a next value that wraps give
values below the minimum or twice; so does the counter when it comes round after the bound
was met. -/
theorem nextval_wraps : Breaks nearMax (ask 0 ++ ask 0) ∧ Breaks wideSteps (ask 0 ++ ask 0) ∧
      Breaks lastValue (ask 0 ++ [.nextval 0]) ∧ Breaks comesRound (ask 0 ++ ask 0 ++ ask 0) :=
  ⟨breaks_of_run rfl rfl (by decide +kernel), breaks_of_run rfl rfl (by decide +kernel),
    breaks_of_run rfl rfl (by decide +kernel), breaks_of_run rfl rfl (by decide +kernel)⟩

end Examples

end Datax.Sequence
