import Mathlib.Order.Lattice

/-!
# Registers under reordered writes

A register holds at most one value, with an owner and a rank. A put takes effect over an older value
or nothing, a delete over a value of the given owner at or below the given rank. Writes are
delivered in another order than issued.

`Latest` is a register on its way to a value, `Gone` one on its way to be empty; a delete leaves
nothing to compare a late put with, so `Gone` needs that no earlier put arrives after a delete.
-/

namespace Register

open List

universe u v w
variable {ν : Type u} {ι : Type v} {γ : Type w}

inductive Write (ν : Type u) (ι : Type v) (γ : Type w) where
  | put (value : ν)
  | delete (owner : ι) (rank : γ)

def Write.value : Write ν ι γ → Option ν
  | put x => some x
  | delete _ _ => none

theorem mem_around {before after : List (Write ν ι γ)} {a b : Write ν ι γ}
    (h : b ∈ before ++ after) :
    b ∈ before ++ a :: after := by
  rcases mem_append.mp h with h | h
  · exact mem_append_left _ h
  · exact mem_append_right _ (mem_cons_of_mem a h)

section Queues
variable [LinearOrder γ] (owner : ν → ι) (rank : ν → γ)

/-- Whatever the register holds or will be told is older than `x` or is `x`, and
`x` is there or still to come. -/
structure Latest (x : ν) (r : Option ν) (queue : List (Write ν ι γ)) : Prop where
  arrived : r = some x ∨ Write.put x ∈ queue
  record : ∀ v, r = some v → rank v < rank x ∨ v = x
  puts : ∀ v, Write.put v ∈ queue → rank v < rank x ∨ v = x
  deletes : ∀ i g, Write.delete i g ∈ queue → g < rank x

/-- The register is empty for good, or the delete of its latest value is the last
write to come. -/
inductive Gone (r : Option ν) (queue : List (Write ν ι γ)) : Prop where
  | settled (empty : r = none) (puts : ∀ v, Write.put v ∉ queue)
  | leaving (x : ν) (before : List (Write ν ι γ))
    (split : queue = before ++ [.delete (owner x) (rank x)])
      (latest : Latest rank x r before)

/-- Everything the register holds or will be told is at or below a rank. -/
structure UpTo (g : γ) (r : Option ν) (queue : List (Write ν ι γ)) : Prop where
  record : ∀ v, r = some v → rank v ≤ g
  puts : ∀ v, Write.put v ∈ queue → rank v ≤ g
  deletes : ∀ i h, Write.delete i h ∈ queue → h ≤ g

variable {owner rank} {x : ν} {r : Option ν} {queue : List (Write ν ι γ)} {g : γ}

section
variable (h : UpTo rank g r queue)
include h

theorem UpTo.mono {g' : γ} (hle : g ≤ g') : UpTo rank g' r queue where
  record v hv := (h.record v hv).trans hle
  puts v hv := (h.puts v hv).trans hle
  deletes i k hk := (h.deletes i k hk).trans hle

theorem UpTo.put (hx : rank x ≤ g) : UpTo rank g r (queue ++ [.put x]) := { h with
  puts v hv := by
    rcases mem_append.mp hv with hv | hv
    · exact h.puts v hv
    · cases mem_singleton.mp hv
      exact hx
  deletes i k hk := by
    rcases mem_append.mp hk with hk | hk
    · exact h.deletes i k hk
    · cases mem_singleton.mp hk }

theorem UpTo.delete {i : ι} {k : γ} (hk : k ≤ g) :
    UpTo rank g r (queue ++ [.delete i k]) := { h with
  puts v hv := by
    rcases mem_append.mp hv with hv | hv
    · exact h.puts v hv
    · cases mem_singleton.mp hv
  deletes j l hl := by
    rcases mem_append.mp hl with hl | hl
    · exact h.deletes j l hl
    · cases mem_singleton.mp hl
      exact hk }

theorem UpTo.latest (hx : g < rank x) : Latest rank x r (queue ++ [.put x]) where
  arrived := .inr (mem_append_right _ mem_cons_self)
  record v hv := .inl ((h.record v hv).trans_lt hx)
  puts v hv := by
    rcases mem_append.mp hv with hv | hv
    · exact .inl ((h.puts v hv).trans_lt hx)
    · cases mem_singleton.mp hv
      exact .inr rfl
  deletes i k hk := by
    rcases mem_append.mp hk with hk | hk
    · exact (h.deletes i k hk).trans_lt hx
    · cases mem_singleton.mp hk

end

theorem Latest.again (h : Latest rank x r queue) : Latest rank x r (queue ++ [.put x]) := { h with
  arrived := .inr (mem_append_right _ mem_cons_self)
  puts v hv := by
    rcases mem_append.mp hv with hv | hv
    · exact h.puts v hv
    · cases mem_singleton.mp hv
      exact .inr rfl
  deletes i k hk := by
    rcases mem_append.mp hk with hk | hk
    · exact h.deletes i k hk
    · cases mem_singleton.mp hk }

theorem Latest.gone (h : Latest rank x r queue) :
    Gone owner rank r (queue ++ [.delete (owner x) (rank x)]) := .leaving x queue rfl h

theorem Latest.eq_of_nil (h : Latest rank x r ([] : List (Write ν ι γ))) : r = some x := by
  rcases h.arrived with hr | hmem
  · exact hr
  · cases hmem

theorem Gone.eq_of_nil (h : Gone owner rank r ([] : List (Write ν ι γ))) : r = none := by
  cases h with
  | settled hempty _ => exact hempty
  | leaving x queue hsplit _ =>
    rw [eq_comm, append_eq_nil_iff] at hsplit
    cases hsplit.2

end Queues

section Rules
variable [DecidableEq ι] [LinearOrder γ] (owner : ν → ι) (rank : ν → γ)

def applies : Option ν → Write ν ι γ → Bool
  | none, .put _ => true
  | some r, .put x =>
    decide (rank r < rank x) || (decide (owner r = owner x) && decide (rank r = rank x))
  | none, .delete _ _ => false
  | some r, .delete i g => decide (owner r = i) && decide (rank r ≤ g)

def write (r : Option ν) (a : Write ν ι γ) : Option ν :=
  if applies owner rank r a then a.value else r

variable {owner rank} {x : ν} {r : Option ν} {queue before after : List (Write ν ι γ)}
  {a : Write ν ι γ} {g : γ}

theorem of_write {v : ν} (h : write owner rank r a = some v) : r = some v ∨ a = .put v := by
  unfold write at h
  split at h
  · cases a <;> cases h
    exact .inr rfl
  · exact .inl h

theorem UpTo.deliver (h : UpTo rank g r (before ++ a :: after)) :
    UpTo rank g (write owner rank r a) (before ++ after) where
  record v hv :=
    (of_write hv).elim (h.record v) fun ha => h.puts v (ha ▸ mem_append_right _ mem_cons_self)
  puts v hv := h.puts v (mem_around hv)
  deletes i k hk := h.deletes i k (mem_around hk)

theorem Latest.write_self (h : Latest rank x r (before ++ a :: after)) (hr : r = some x) :
    write owner rank r a = some x := by
  subst hr
  cases a with
  | put v =>
    rcases h.puts v (mem_append_right _ mem_cons_self) with hlt | rfl
    · have happ : applies owner rank (some x) (Write.put v) = false := by
        simp [applies, hlt.ne', hlt.le]
      simp [write, happ]
    · simp [write, applies, Write.value]
  | delete i k =>
    have hlt := h.deletes i k (mem_append_right _ mem_cons_self)
    have happ : applies owner rank (some x) (Write.delete i k) = false := by
      simp [applies, hlt]
    simp [write, happ]

theorem Latest.write_put (h : Latest rank x r queue) : write owner rank r (.put x) = some x := by
  have happ : applies owner rank r (.put x) = true := by
    cases hr : r with
    | none => rfl
    | some v =>
      rcases h.record v hr with hlt | rfl
      · simp [applies, hlt]
      · simp [applies]
  simp [write, happ, Write.value]

theorem Latest.deliver (h : Latest rank x r (before ++ a :: after)) :
    Latest rank x (write owner rank r a) (before ++ after) where
  arrived := by
    rcases h.arrived with hr | hmem
    · exact .inl (h.write_self hr)
    rcases mem_append.mp hmem with hmem | hmem
    · exact .inr (mem_append_left _ hmem)
    rcases mem_cons.mp hmem with rfl | hmem
    · exact .inl h.write_put
    · exact .inr (mem_append_right _ hmem)
  record v hv :=
    (of_write hv).elim (h.record v) fun ha => h.puts v (ha ▸ mem_append_right _ mem_cons_self)
  puts v hv := h.puts v (mem_around hv)
  deletes i k hk := h.deletes i k (mem_around hk)

theorem Gone.deliver (h : Gone owner rank r (before ++ a :: after))
    (horder : ∀ i k, a = .delete i k → ∀ v, Write.put v ∉ before) :
    Gone owner rank (write owner rank r a) (before ++ after) := by
  cases h with
  | settled hempty hputs =>
    apply Gone.settled
    · subst hempty
      cases a with
      | put v => exact absurd (mem_append_right _ mem_cons_self) (hputs v)
      | delete i k => rfl
    · exact fun v hv => hputs v (mem_around hv)
  | leaving x queue hsplit hlatest =>
    -- the delivered write is the final delete, or one of those before it
    rcases eq_nil_or_concat after with rfl | ⟨rest, last, rfl⟩
    · obtain ⟨rfl, hlast⟩ := append_inj' hsplit rfl
      cases hlast
      have hnone := horder _ _ rfl
      rcases hlatest.arrived with rfl | hmem
      · apply Gone.settled
        · simp [write, applies, Write.value]
        · rw [append_nil]
          exact hnone
      · exact absurd hmem (hnone x)
    · rw [concat_eq_append] at hsplit ⊢
      rw [← cons_append, ← append_assoc] at hsplit
      obtain ⟨rfl, hlast⟩ := append_inj' hsplit rfl
      cases hlast
      rw [← append_assoc]
      exact hlatest.deliver.gone

end Rules

end Register
