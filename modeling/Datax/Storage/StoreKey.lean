import Mathlib.Data.List.Basic

/-!
# Rotating the store key

The registry of a store directory is sealed under the store key, and so is the one of the raft
engine in a subdirectory. A rotation reseals the outer registry and goes on to the inner one.
Sealing is ideal: a sealed registry opens under its own key only.
-/

namespace Datax.StoreKeys

open List

abbrev StoreKey := List UInt8

def keyLen : Nat := 32

structure Sealed (Data : Type) where
  key : StoreKey
  data : Data
deriving DecidableEq

inductive RotateError
  | keyLength
  | notEncrypted
  | keyMismatch
  | noKey
  | interrupted
deriving DecidableEq

variable {Data : Type}

def Sealed.unseal (registry : Sealed Data) (key : StoreKey) : Option Data :=
  if registry.key = key then some registry.data else none

/-- The candidate that opens the registry in a directory; without a registry, the first. -/
def matchStoreKey (registry : Option (Sealed Data)) (candidates : List StoreKey) :
    Except RotateError Nat :=
  if candidates.isEmpty then .error .noKey
  else if candidates.any fun k => k.length != keyLen then .error .keyLength
  else match registry with
    | none => .ok 0
    | some r =>
      match candidates.findIdx? fun k => (r.unseal k).isSome with
      | some i => .ok i
      | none => .error .keyMismatch

/-- `RotateStoreKey` on the registries of nested directories. The run is stopped when it has renamed
`budget` of them, before the next rename or before it returns. -/
def rotateStoreKey (old new : StoreKey) :
    Nat → List (Sealed Data) → List (Sealed Data) × Except RotateError Unit
  | _, [] => ([], .error (if new.length ≠ keyLen then .keyLength else .notEncrypted))
  | budget, registry :: sub =>
    if new.length ≠ keyLen then (registry :: sub, .error .keyLength)
    else match registry.unseal old with
      | none => (registry :: sub, .error .keyMismatch)
      | some data =>
        if budget = 0 then (registry :: sub, .error .interrupted)
        -- nothing is left to do without an inner registry, or with one under the new key
        else if sub.isEmpty || (matchStoreKey sub.head? [new]).isOk then
          (⟨new, data⟩ :: sub, if budget = 1 then .error .interrupted else .ok ())
        else
          let rest := rotateStoreKey old new (budget - 1) sub
          (⟨new, data⟩ :: rest.1, rest.2)

/-- Run after run until one is not interrupted: that one succeeds with every registry resealed,
and after each a candidate opens every registry. -/
def Finishes (old new : StoreKey) (contents : List Data) : List Nat → List (Sealed Data) → Prop
  | [], s => rotateStoreKey old new (s.length + 1) s = (contents.map (Sealed.mk new), .ok ())
  | stop :: stops, s =>
    let run := rotateStoreKey old new stop s
    (∀ r ∈ run.1, (matchStoreKey (some r) [old, new]).isOk) ∧
      if run.2 = .error .interrupted then Finishes old new contents stops run.1
      else run = (contents.map (Sealed.mk new), .ok ())

section Rotate
variable {old new : StoreKey} {contents : List Data} (hlen : new.length = keyLen) (hne : old ≠ new)
include hlen hne

theorem not_finishes_of_renamed (stops : List Nat) (d : Data) (s : List (Sealed Data)) :
    ¬ Finishes old new contents stops (⟨new, d⟩ :: s) := by
  have hagain (budget : Nat) :
      (rotateStoreKey old new budget (⟨new, d⟩ :: s)).2 = .error .keyMismatch := by
    simp [rotateStoreKey, hlen, Sealed.unseal, hne.symm]
  cases stops with
  | nil =>
    intro h
    simpa [hagain] using congrArg Prod.snd h
  | cons stop stops =>
    intro h
    have hrun := h.2
    rw [if_neg (by simp [hagain])] at hrun
    simpa [hagain] using congrArg Prod.snd hrun

theorem rotateStoreKey_sealed (hnil : contents ≠ []) (budget : Nat) :
    rotateStoreKey old new budget (contents.map (Sealed.mk old)) =
      ((contents.take budget).map (Sealed.mk new) ++ (contents.drop budget).map (Sealed.mk old),
        if budget ≤ contents.length then .error .interrupted else .ok ()) := by
  induction contents generalizing budget with
  | nil => exact absurd rfl hnil
  | cons d ds ih =>
    cases budget with
    | zero => simp [rotateStoreKey, hlen, Sealed.unseal]
    | succ budget =>
      cases ds with
      | nil => simp [rotateStoreKey, hlen, Sealed.unseal]
      | cons d' ds =>
        have hinner : matchStoreKey (some (Sealed.mk old d')) [new] = .error .keyMismatch := by
          simp [matchStoreKey, hlen, Sealed.unseal, hne]
        rw [map_cons, rotateStoreKey, Nat.add_sub_cancel, ih (cons_ne_nil d' ds) budget]
        simp [hlen, Sealed.unseal, hinner, Except.isOk, Except.toBool]

/-- A rotation that was stopped can be finished by running it again exactly when it was stopped
before the outer registry was renamed. -/
theorem rotation_finishes_iff (hold : old.length = keyLen) (hnil : contents ≠ [])
    (stops : List Nat) :
    Finishes old new contents stops (contents.map (Sealed.mk old)) ↔
      ∀ stop, (stops.dropWhile (· == 0)).head? = some stop → contents.length < stop := by
  have hopened (r : Sealed Data) (h : r.key = old ∨ r.key = new) :
      (matchStoreKey (some r) [old, new]).isOk = true := by
    rcases h with h | h
    · simp [matchStoreKey, Sealed.unseal, hlen, hold, h, findIdx?_cons, Except.isOk, Except.toBool]
    · simp [matchStoreKey, Sealed.unseal, hlen, hold, h, hne.symm, findIdx?_cons, Except.isOk,
        Except.toBool]
  induction stops with
  | nil =>
    simp [Finishes, rotateStoreKey_sealed hlen hne hnil, take_of_length_le, drop_of_length_le]
  | cons stop stops ih =>
    have hkeys : ∀ r ∈ (contents.take stop).map (Sealed.mk new) ++ (contents.drop stop).map
        (Sealed.mk old), (matchStoreKey (some r) [old, new]).isOk = true := by
      simp only [forall_mem_append, forall_mem_map]
      exact ⟨fun _ _ => hopened _ (.inr rfl), fun _ _ => hopened _ (.inl rfl)⟩
    simp only [Finishes, rotateStoreKey_sealed hlen hne hnil]
    rw [and_iff_right hkeys]
    cases stop with
    | zero => simpa using ih
    | succ stop =>
      obtain ⟨d, ds, rfl⟩ := exists_cons_of_ne_nil hnil
      by_cases hle : stop ≤ ds.length
      · simp [hle, not_finishes_of_renamed hlen hne]
      · have hlt := Nat.lt_of_not_le hle
        simp [hle, hlt, Nat.le_of_lt hlt, take_of_length_le, drop_of_length_le]

end Rotate

def firstKey : StoreKey := List.replicate 32 1

def secondKey : StoreKey := List.replicate 32 2

/-- Stopped between the two registries, the rotation refuses to go on. -/
theorem rotation_stuck :
    rotateStoreKey firstKey secondKey 1 [⟨firstKey, "main"⟩, ⟨firstKey, "raft"⟩] =
      ([⟨secondKey, "main"⟩, ⟨firstKey, "raft"⟩], .error .interrupted) ∧
    rotateStoreKey firstKey secondKey 3 [⟨secondKey, "main"⟩, ⟨firstKey, "raft"⟩] =
      ([⟨secondKey, "main"⟩, ⟨firstKey, "raft"⟩], .error .keyMismatch) := by
  decide

theorem rotation_finishes_unrenamed :
    Finishes firstKey secondKey ["main", "raft"] [0, 0] [⟨firstKey, "main"⟩, ⟨firstKey, "raft"⟩] :=
  (rotation_finishes_iff (by decide) (by decide) (by decide) (by decide) [0, 0]).mpr (by simp)

end Datax.StoreKeys
