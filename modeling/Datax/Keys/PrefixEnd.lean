import Datax.Keys.Key
import Datax.Shared.PrefixCode

/-!
# Spans of keys with a common beginning

`prefixEnd` is the first key after every key that begins with a given one.
-/

namespace Datax.Key

open List PrefixCode

/-- The last byte that can be incremented is, and what follows it is cut off. -/
def increment : Key → Option Key
  | [] => none
  | b :: bs =>
    match increment bs with
    | some e => some (b :: e)
    | none => if b = 255 then none else some [b + 1]

def prefixEnd (k : Key) : Key := (increment k).getD maxKey

theorem increment_append {x e : Key} (a : Key) (h : increment x = some e) :
    increment (a ++ x) = some (a ++ e) := by
  induction a with
  | nil => exact h
  | cons b bs ih =>
    rw [cons_append, increment, ih]
    rfl

theorem lt_of_increment {k e : Key} (h : increment k = some e) : k < e := by
  induction k generalizing e with
  | nil => cases h
  | cons b bs ih =>
    rw [increment] at h
    split at h
    · rename_i e' he
      cases h
      exact List.Lex.cons (ih he)
    · split_ifs at h with hb
      cases h
      exact List.Lex.rel (Fin.lt_add_one_iff.mpr (lt_of_le_of_ne (Fin.le_last b) hb))

theorem prefix_of_increment_eq_none {k q : Key} (h : increment k = none) (hle : k ≤ q) :
    k <+: q := by
  induction k generalizing q with
  | nil => exact nil_prefix
  | cons b bs ih =>
    rw [increment] at h
    split at h
    · cases h
    rename_i hnone
    split_ifs at h with hb
    cases q with
    | nil => exact absurd hle (not_le.mpr (nil_lt_cons b bs))
    | cons c cs =>
      rcases cons_le_cons_iff.mp hle with hbc | ⟨rfl, hrest⟩
      · exact absurd hbc (not_lt.mpr (hb ▸ Fin.le_last c))
      · exact cons_prefix_cons.mpr ⟨rfl, ih hnone hrest⟩

theorem cons_between {b c : Byte} {bs cs ds : Key} (hle : b :: bs ≤ c :: cs)
    (hlt : c :: cs < b :: ds) :
    b = c ∧ bs ≤ cs ∧ cs < ds := by
  rcases cons_le_cons_iff.mp hle with hb | ⟨rfl, hbs⟩
  · rcases cons_lt_cons_iff.mp hlt with hc | ⟨rfl, _⟩
    · exact absurd hc hb.asymm
    · exact absurd hb (lt_irrefl _)
  · exact ⟨rfl, hbs, (cons_lt_cons_iff.mp hlt).elim (fun h => absurd h (lt_irrefl _)) And.right⟩

theorem prefix_of_lt_increment {k e q : Key} (h : increment k = some e) (hle : k ≤ q)
    (hlt : q < e) : k <+: q := by
  induction k generalizing e q with
  | nil => exact nil_prefix
  | cons b bs ih =>
    cases q with
    | nil => exact absurd hle (not_le.mpr (nil_lt_cons b bs))
    | cons c cs =>
      rw [increment] at h
      split at h
      · rename_i e' he
        cases h
        obtain ⟨rfl, hbs, hrest⟩ := cons_between hle hlt
        exact cons_prefix_cons.mpr ⟨rfl, ih he hbs hrest⟩
      · rename_i hnone
        split_ifs at h with hb
        cases h
        have hcb : c ≤ b := by
          rcases cons_lt_cons_iff.mp hlt with hc | ⟨_, hrest⟩
          · exact Fin.le_def.mpr (by have := Fin.lt_def.mp hc; omega)
          · exact absurd hrest (not_lt_nil cs)
        rcases cons_le_cons_iff.mp hle with hbc | ⟨rfl, hbs⟩
        · exact absurd (lt_of_lt_of_le hbc hcb) (lt_irrefl _)
        · exact cons_prefix_cons.mpr ⟨rfl, prefix_of_increment_eq_none hnone hbs⟩

theorem prefix_of_lt_append {k x q : Key} (hle : k ≤ q) (hlt : q < k ++ x) : k <+: q := by
  induction k generalizing q with
  | nil => exact nil_prefix
  | cons b bs ih =>
    cases q with
    | nil => exact absurd hle (not_le.mpr (nil_lt_cons b bs))
    | cons c cs =>
      obtain ⟨rfl, hbs, hrest⟩ := cons_between hle hlt
      exact cons_prefix_cons.mpr ⟨rfl, ih hbs hrest⟩

theorem increment_cons_ne_none {b : Byte} (hb : b ≠ 255) (bs : Key) :
    increment (b :: bs) ≠ none := by
  rw [increment]
  split
  · exact Option.some_ne_none _
  · rw [if_neg hb]
    exact Option.some_ne_none _

end Datax.Key
