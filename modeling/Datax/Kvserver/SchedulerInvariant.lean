import Datax.Kvserver.Scheduler

/-!
# The invariant of the scheduler

The invariant is stated for one range at a time, in five parts that look at different fields: the
apply queue and runs, the queue and the passes, which replica a run or a pass belongs to, the order
of the entries, and the flags.
-/

namespace Datax.Scheduler

open List Option

universe u
variable {ε : Type u}

/-- A range with entries to apply is in the apply queue once, or one run is on. -/
def ApplyInv (size : ε → Nat) : Option (ApplyState ε) → List (ApplyRun ε) → Nat → Prop
  | none, runs, aq => runs = [] ∧ aq = 0
  | some as, runs, aq =>
    as.bytes = entriesBytes size as.pending + entriesBytes size (runs.flatMap ApplyRun.ents) ∧
      ((as.queued = true ∧ as.running = false ∧ runs = [] ∧ aq = 1) ∨
        (as.queued = false ∧ as.running = true ∧ (∃ run, runs = [run]) ∧ aq = 0))

/-- A range with flags is in the queue once, or one pass is on. -/
def SchedInv : Option SchedState → List Pass → Nat → Prop
  | none, passes, q => passes = [] ∧ q = 0
  | some st, passes, q =>
    (st.queued = true ∧ st.running = false ∧ passes = [] ∧ q = 1) ∨
      (st.queued = false ∧ st.running = true ∧ (∃ p, passes = [p]) ∧ q = 0) ∨
      (st.queued = false ∧ st.running = false ∧ passes = [] ∧ q = 0 ∧ st.flags = ⊥)

def StageOK (replica : Option Nat) (created : Nat) (stopped : Nat → Bool) : Stage → Prop
  | .taken => True
  | .looked none => replica = none
  | .looked (some r) => r + 1 = created
  | .applying r => r + 1 = created
  | .failed r => r + 1 = created ∧ stopped r = true
  | .skipped false => replica = none
  | .skipped true => ∃ r, r + 1 = created ∧ stopped r = true

theorem StageOK.mono {replica replica' : Option Nat} {created : Nat} {stopped stopped' : Nat → Bool}
    {stage : Stage} (h : StageOK replica created stopped stage)
    (hreplica : replica = none → replica' = none) (hstopped : ∀ r, stopped r = true →
      stopped' r = true) : StageOK replica' created stopped' stage := by
  cases stage with
  | taken => trivial
  | looked found =>
    cases found with
    | none => exact hreplica h
    | some r => exact h
  | applying r => exact h
  | failed r => exact ⟨h.1, hstopped r h.2⟩
  | skipped ok =>
    cases ok with
    | false => exact hreplica h
    | true => exact h.imp fun r hr => ⟨hr.1, hstopped r hr.2⟩

structure OwnerInv (replica : Option Nat) (created : Nat) (stopped : Nat → Bool)
    (runs : List (ApplyRun ε)) (passes : List Pass) : Prop where
  current : ∀ r, replica = some r → r + 1 = created
  runs : ∀ run ∈ runs, StageOK replica created stopped run.stage
  missing : ∀ p ∈ passes, p.replica = some none → replica = none
  passes : ∀ p ∈ passes, ∀ r, p.replica = some (some r) → r + 1 = created

structure OrderInv (replica : Option Nat) (created : Nat) (stopped : Nat → Bool)
    (enqueued handed : Nat → List ε) (runs : List (ApplyRun ε)) (pending : List ε) : Prop where
  fresh : ∀ r, created ≤ r → enqueued r = []
  inOrder : ∀ r, handed r <+: enqueued r
  looked : ∀ run ∈ runs, ∀ r, run.stage = .looked (some r) → stopped r = false →
    handed r ++ run.ents <+: enqueued r
  complete : ∀ r, replica = some r → stopped r = false →
    enqueued r = handed r ++ runs.flatMap ApplyRun.waiting ++ pending

def FlagInv (bound : Nat) (slot : Slot ε) : Prop :=
  ∀ r, slot.Live r → slot.owed ≤ slot.flags ⊔ ((slot.apply.map ApplyState.deferred).getD ⊥) ∧
    ∀ as, slot.apply = some as → as.deferred ≠ ⊥ → (bound : Int) < as.bytes

structure SlotInv (size : ε → Nat) (bound : Nat) (slot : Slot ε) (q aq : Nat) : Prop where
  apply : ApplyInv size slot.apply slot.runs aq
  sched : SchedInv slot.sched slot.passes q
  owner : OwnerInv slot.replica slot.created slot.stopped slot.runs slot.passes
  order : OrderInv slot.replica slot.created slot.stopped slot.enqueued slot.handed slot.runs
    slot.pending
  flags : FlagInv bound slot

def Inv (size : ε → Nat) (bound : Nat) (s : State ε) : Prop :=
  ∀ id, SlotInv size bound (s.slots id) (s.queue.count id) (s.applyQueue.count id)

section Sizes
variable (size : ε → Nat)

@[simp] theorem entriesBytes_nil : entriesBytes size [] = 0 := rfl

theorem entriesBytes_nonneg (xs : List ε) : 0 ≤ entriesBytes size xs := by
  induction xs with
  | nil => exact le_refl 0
  | cons x xs ih =>
    unfold entriesBytes at ih ⊢
    rw [map_cons, sum_cons]
    omega

theorem entriesBytes_append (xs ys : List ε) :
    entriesBytes size (xs ++ ys) = entriesBytes size xs + entriesBytes size ys := by
  unfold entriesBytes
  rw [map_append, sum_append]

end Sizes

section Sound
variable {size : ε → Nat} {bound : Nat} {s : State ε}

theorem Inv.sound (h : Inv size bound s) : Sound bound s where
  inOrder id := (h id).order.inOrder
  complete id r hlive := (h id).order.complete r hlive.1 hlive.2
  exclusive id := by
    have happly := (h id).apply
    cases ha : (s.slots id).apply with
    | none =>
      rw [ha] at happly
      rw [happly.1]
      exact Nat.zero_le 1
    | some as =>
      rw [ha] at happly
      rcases happly.2 with ⟨-, -, hruns, -⟩ | ⟨-, -, ⟨run, hruns⟩, -⟩
      · rw [hruns]
        exact Nat.zero_le 1
      · rw [hruns]
        exact le_refl 1
  scheduled id r _ hpending := by
    have happly := (h id).apply
    cases ha : (s.slots id).apply with
    | none =>
      unfold Slot.pending at hpending
      rw [ha] at hpending
      exact absurd rfl hpending
    | some as =>
      rw [ha] at happly
      rcases happly.2 with ⟨-, -, hruns, haq⟩ | ⟨-, -, ⟨run, hruns⟩, haq⟩
      · exact .inl ⟨haq, hruns⟩
      refine .inr ⟨haq, ?_⟩
      rw [hruns]
      exact cons_ne_nil _ _
  drained id hdrain := by
    have happly := (h id).apply
    unfold Slot.drainApply at hdrain
    unfold Slot.pending
    cases ha : (s.slots id).apply with
    | none =>
      rw [ha] at happly
      exact ⟨rfl, happly.1⟩
    | some as =>
      rw [ha] at happly hdrain
      dsimp only at hdrain
      split at hdrain
      · rename_i hidle
        obtain ⟨hrun, hpend⟩ := Bool.and_eq_true_iff.mp hidle
        rcases happly.2 with ⟨-, -, hruns, -⟩ | ⟨-, hrunning, -, -⟩
        · exact ⟨isEmpty_iff.mp hpend, hruns⟩
        · simp [hrunning] at hrun
      · split_ifs at hdrain
        cases hdrain
  reenqueued id r hlive hbytes howed := by
    obtain ⟨hle, hdeferred⟩ := (h id).flags r hlive
    have hnone : ((s.slots id).apply.map ApplyState.deferred).getD ⊥ = ⊥ := by
      cases ha : (s.slots id).apply with
      | none => rfl
      | some as =>
        by_contra hne
        exact absurd (hdeferred as ha hne) (not_lt.mpr (hbytes as ha))
    rw [hnone, sup_bot_eq] at hle
    refine ⟨hle, ?_⟩
    have hsched := (h id).sched
    unfold Slot.flags at hle
    cases hst : (s.slots id).sched with
    | none =>
      rw [hst] at hle
      exact absurd (le_bot_iff.mp hle) howed
    | some st =>
      rw [hst] at hle hsched
      rcases hsched with ⟨-, -, -, hq⟩ | ⟨-, -, ⟨p, hp⟩, -⟩ | ⟨-, -, -, -, hflags⟩
      · exact .inl hq
      · refine .inr ?_
        rw [hp]
        exact cons_ne_nil _ _
      · change (s.slots id).owed ≤ st.flags at hle
        rw [hflags] at hle
        exact absurd (le_bot_iff.mp hle) howed

end Sound

variable {i : Nat} {run : ApplyRun ε}

section Parts
variable {size : ε → Nat} {sched : Option SchedState} {passes : List Pass} {q : Nat}
  {apply : Option (ApplyState ε)} {runs : List (ApplyRun ε)} {aq : Nat}

theorem getElem?_singleton_some {α : Type*} {a b : α} (h : [a][i]? = some b) : i = 0 ∧ a = b := by
  cases i with
  | zero => exact ⟨rfl, some.inj h⟩
  | succ i => cases h

theorem SchedInv.of_pass (h : SchedInv sched passes q) {p : Pass} (hp : passes[i]? = some p) :
    i = 0 ∧ passes = [p] ∧ q = 0 ∧ ∃ st, sched = some st ∧ st.queued = false ∧
      st.running = true := by
  have hne : passes ≠ [] := by
    rintro rfl
    cases hp
  cases sched with
  | none => exact absurd h.1 hne
  | some st =>
    rcases h with ⟨-, -, hnil, -⟩ | ⟨hqueued, hrunning, ⟨p', rfl⟩, hq⟩ | ⟨-, -, hnil, -⟩
    · exact absurd hnil hne
    · obtain ⟨hi, rfl⟩ := getElem?_singleton_some hp
      exact ⟨hi, rfl, hq, st, rfl, hqueued, hrunning⟩
    · exact absurd hnil hne

theorem ApplyInv.of_run (h : ApplyInv size apply runs aq) (hr : runs[i]? = some run) :
    i = 0 ∧ runs = [run] ∧ aq = 0 ∧ ∃ as, apply = some as ∧ as.queued = false ∧ as.running = true ∧
      as.bytes = entriesBytes size as.pending + entriesBytes size run.ents := by
  have hne : runs ≠ [] := by
    rintro rfl
    cases hr
  cases apply with
  | none => exact absurd h.1 hne
  | some as =>
    obtain ⟨hbytes, ⟨-, -, hnil, -⟩ | ⟨hqueued, hrunning, ⟨run', rfl⟩, haq⟩⟩ := h
    · exact absurd hnil hne
    obtain ⟨hi, rfl⟩ := getElem?_singleton_some hr
    refine ⟨hi, rfl, haq, as, rfl, hqueued, hrunning, ?_⟩
    rw [hbytes, flatMap_singleton]

theorem ApplyInv.set_stage {run' : ApplyRun ε} (h : ApplyInv size apply [run] aq)
    (hents : run'.ents = run.ents) :
    ApplyInv size apply [run'] aq := by
  cases apply with
  | none => exact absurd h.1 (cons_ne_nil _ _)
  | some as =>
    obtain ⟨hbytes, ⟨-, -, hnil, -⟩ | ⟨hqueued, hrunning, -, haq⟩⟩ := h
    · exact absurd hnil (cons_ne_nil _ _)
    · refine ⟨?_, .inr ⟨hqueued, hrunning, ⟨run', rfl⟩, haq⟩⟩
      rw [hbytes, flatMap_singleton, flatMap_singleton, hents]

end Parts

section Raise
variable {size : ε → Nat} {bound : Nat} {slot : Slot ε} {q aq : Nat}

theorem raise_spec (slot : Slot ε) (f : SchedFlags) :
    ∃ st, (slot.raise f).1 = { slot with sched := some st } ∧ st.flags = slot.flags ⊔ f ∧
      ∀ q, SchedInv slot.sched slot.passes q →
        SchedInv (some st) slot.passes (q + (slot.raise f).2.toNat) := by
  unfold Slot.raise Slot.flags
  cases hst : slot.sched with
  | none =>
    refine ⟨_, rfl, rfl, ?_⟩
    rintro q ⟨hpasses, rfl⟩
    exact .inl ⟨rfl, rfl, hpasses, rfl⟩
  | some st =>
    dsimp only [getD_some, map_some]
    split
    · rename_i hidle
      obtain ⟨hqueued, hrunning⟩ := Bool.and_eq_true_iff.mp hidle
      refine ⟨_, rfl, rfl, ?_⟩
      rintro q (⟨hq, -⟩ | ⟨-, hr, -⟩ | ⟨-, hr, hpasses, rfl, -⟩)
      · simp [hq] at hqueued
      · simp [hr] at hrunning
      · exact .inl ⟨rfl, hr, hpasses, rfl⟩
    · rename_i hbusy
      refine ⟨_, rfl, rfl, ?_⟩
      rintro q (h | h | ⟨hqueued, hrunning, -⟩)
      · exact .inl h
      · exact .inr (.inl h)
      · rw [hqueued, hrunning] at hbusy
        exact absurd rfl hbusy

theorem inv_enqueue (h : SlotInv size bound slot q aq) (f : SchedFlags) :
    SlotInv size bound { (slot.raise f).1 with owed := slot.owed ⊔ f }
      (q + (slot.raise f).2.toNat) aq := by
  obtain ⟨st, hslot, hflags, hsched⟩ := raise_spec slot f
  rw [hslot]
  refine ⟨h.apply, hsched q h.sched, h.owner, h.order, ?_⟩
  intro r hlive
  obtain ⟨hle, hdeferred⟩ := h.flags r hlive
  refine ⟨?_, hdeferred⟩
  change slot.owed ⊔ f ≤ st.flags ⊔ _
  rw [hflags, sup_right_comm]
  exact sup_le_sup_right hle f

end Raise

variable {worker : Nat}

section Passes
variable {size : ε → Nat} {bound : Nat} {slot slot' : Slot ε} {q aq i : Nat} {o : Outcome ε}

theorem inv_passTake (h : SlotInv size bound slot (q + 1) aq)
    (htake : slot.passTake bound worker = some slot') :
    SlotInv size bound slot' q aq := by
  unfold Slot.passTake at htake
  have hsched := h.sched
  cases hst : slot.sched with
  | none =>
    simp [hst] at htake
  | some st =>
    rw [hst] at htake hsched
    have hflags : slot.flags = st.flags := by
      unfold Slot.flags
      rw [hst]
      rfl
    obtain ⟨hrunning, hpasses, hq⟩ : st.running = false ∧ slot.passes = [] ∧ q = 0 := by
      rcases hsched with ⟨-, hr, hp, hq⟩ | ⟨-, -, -, hq⟩ | ⟨-, -, -, hq, -⟩
      · exact ⟨hr, hp, by omega⟩
      · omega
      · omega
    dsimp only at htake
    split at htake
    · rename_i hover
      cases htake
      cases ha : slot.apply with
      | none =>
        simp [ha] at hover
      | some as =>
        have happly := h.apply
        have horder := h.order
        have hbytes : (bound : Int) < as.bytes := by
          rw [ha] at hover
          exact of_decide_eq_true hover
        unfold Slot.pending at horder
        rw [ha] at happly horder
        refine ⟨happly, .inr (.inr ⟨rfl, hrunning, hpasses, hq, rfl⟩), h.owner, horder, ?_⟩
        intro r hlive
        refine ⟨?_, ?_⟩
        · have hle := (h.flags r hlive).1
          rw [hflags, ha] at hle
          change slot.owed ≤ ⊥ ⊔ (as.deferred ⊔ st.flags)
          rw [bot_sup_eq, sup_comm]
          exact hle
        · intro as' has' _
          cases has'
          exact hbytes
    · cases htake
      refine ⟨h.apply, .inr (.inl ⟨rfl, rfl, ⟨⟨worker, none⟩, ?_⟩, hq⟩), ?_, h.order, ?_⟩
      · rw [hpasses]
        rfl
      · refine ⟨h.owner.current, h.owner.runs, ?_, ?_⟩
        · intro p hp hnone
          rw [hpasses] at hp
          cases mem_singleton.mp hp
          cases hnone
        · intro p hp r hr
          rw [hpasses] at hp
          cases mem_singleton.mp hp
          cases hr
      · intro r hlive
        obtain ⟨hle, hdeferred⟩ := h.flags r hlive
        refine ⟨?_, hdeferred⟩
        rw [hflags] at hle
        exact sdiff_le_iff.mpr hle

theorem inv_passLookup (h : SlotInv size bound slot q aq)
    (hp : slot.passes[i]? = some ⟨worker, none⟩) :
    SlotInv size bound
      { slot with passes := slot.passes.set i ⟨worker, some slot.replica⟩ } q aq := by
  obtain ⟨rfl, hpasses, hq, st, hst, hqueued, hrunning⟩ := h.sched.of_pass hp
  rw [hpasses]
  refine ⟨h.apply, ?_, ⟨h.owner.current, h.owner.runs, ?_, ?_⟩, h.order, h.flags⟩
  · rw [hst]
    exact .inr (.inl ⟨hqueued, hrunning, ⟨_, rfl⟩, hq⟩)
  · intro p hp hnone
    cases mem_singleton.mp hp
    exact some.inj hnone
  · intro p hp r hr
    cases mem_singleton.mp hp
    exact h.owner.current r (some.inj hr)

theorem inv_passEnd {found : Option Nat} (h : SlotInv size bound slot q aq)
    (hp : slot.passes[i]? = some ⟨worker, some found⟩) (hend : slot.passEnd i found = some o) :
    SlotInv size bound o.slot (q + o.push.toNat) (aq + o.pushApply.toNat) := by
  obtain ⟨rfl, hpasses, hq, st, hst, hqueued, hrunning⟩ := h.sched.of_pass hp
  have howner : ∀ replica, OwnerInv replica slot.created slot.stopped slot.runs slot.passes →
      OwnerInv replica slot.created slot.stopped slot.runs (slot.passes.eraseIdx 0) := by
    intro replica ho
    rw [hpasses]
    exact ⟨ho.current, ho.runs, fun p hp => (by cases hp), fun p hp => (by cases hp)⟩
  unfold Slot.passEnd at hend
  rw [hst] at hend
  dsimp only at hend
  split at hend
  · cases hend
    refine ⟨h.apply, .inl ⟨rfl, rfl, ?_, by rw [hq]; rfl⟩, howner _ h.owner, h.order, ?_⟩
    · rw [hpasses]
      rfl
    intro r hlive
    have hf := h.flags r hlive
    unfold Slot.flags at hf
    rw [hst] at hf
    exact hf
  · rename_i hcond
    cases hend
    refine ⟨h.apply, ⟨?_, hq⟩, howner _ h.owner, h.order, ?_⟩
    · rw [hpasses]
      rfl
    -- the pass of a live replica has found it, so no flag was raised meanwhile
    intro r hlive
    obtain ⟨hle, hdeferred⟩ := h.flags r hlive
    refine ⟨?_, hdeferred⟩
    have hfound : found ≠ none := by
      rintro rfl
      have hgone := h.owner.missing _ (by rw [hpasses]; exact mem_singleton_self _) rfl
      rw [hlive.1] at hgone
      cases hgone
    have hnone : st.flags = ⊥ := by
      by_contra hne
      exact hcond ⟨hne, isSome_iff_ne_none.mpr hfound⟩
    unfold Slot.flags at hle
    rw [hst] at hle
    change slot.owed ≤ st.flags ⊔ _ at hle
    rw [hnone] at hle
    exact hle

end Passes

end Datax.Scheduler
