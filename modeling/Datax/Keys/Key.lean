import Mathlib.Algebra.Order.Ring.Int
import Mathlib.Data.List.Lex
import Mathlib.Order.Fin.Basic

/-!
# Keys and identifiers

Keys are byte strings compared by `bytes.Compare`, which is the lexicographic
order of lists. Transaction identifiers are 128-bit UUIDs, the zero value being
`uuid.Nil`.
-/

namespace Datax

open List

abbrev Byte := Fin 256

instance neZeroByte : NeZero 256 := ⟨by decide⟩

abbrev Key := List Byte

namespace Key

/-- The bounds of the addressable keys. -/
def minKey : Key := [0x02]

def maxKey : Key := [0xff]

def next (k : Key) : Key := k ++ [0]

theorem not_lt_next_of_lt {k q : Key} (h : k < q) : ¬ q < k.next := by
  unfold next
  induction k generalizing q with
  | nil =>
    cases q with
    | nil => simp at h
    | cons b bs =>
      rw [nil_append, cons_lt_cons_iff]
      rintro (hb | ⟨_, hbs⟩)
      · exact absurd hb (Fin.not_lt_zero b)
      · exact absurd hbs (not_lt_nil bs)
  | cons a as ih =>
    cases q with
    | nil => simp at h
    | cons b bs =>
      rw [cons_lt_cons_iff] at h
      rw [cons_append, cons_lt_cons_iff]
      rcases h with hab | ⟨rfl, hlt⟩
      · rintro (hba | ⟨rfl, _⟩)
        · exact absurd hba hab.asymm
        · exact absurd hab (lt_irrefl _)
      · rintro (haa | ⟨_, hlt'⟩)
        · exact absurd haa (lt_irrefl _)
        · exact ih hlt hlt'

theorem lt_next (k : Key) : k < k.next := by
  unfold next
  induction k with
  | nil => simp
  | cons a as ih =>
    rw [cons_append, cons_lt_cons_iff]
    exact .inr ⟨rfl, ih⟩

end Key

abbrev UUID := BitVec 128

namespace UUID

def toString (id : UUID) : String :=
  let digits := id.toHex.toList
  let group := fun i n => String.ofList ((digits.drop i).take n)
  group 0 8 ++ "-" ++ group 8 4 ++ "-" ++ group 12 4 ++ "-" ++ group 16 4 ++ "-" ++ group 20 12

end UUID

end Datax
