import Mathlib.Data.List.Basic
import Mathlib.Logic.Relation

/-!
# Marking what can be reached

A recursive walk marks a node before it goes on from it, and passes over marked ones. When every
node it can meet is one of finitely many, a depth of as many levels as there are unmarked ones is
enough: the nodes marked at the end are those marked at the start and those that can be reached.
-/

namespace Marking

open Bool List

variable {α : Type} [DecidableEq α]

section Walk
variable (next : α → List α)

def visit (again : List α → α → List α) (set : List α) (b : α) : List α :=
  if set.contains b then set else again (b :: set) b

def walk : Nat → List α → α → List α
  | 0 => fun set _ => set
  | n + 1 => fun set a => (next a).foldl (visit (walk n)) set

def Edge (a b : α) : Prop := b ∈ next a

end Walk

def unmarked (nodes set : List α) : Nat := (nodes.filter fun b => !set.contains b).length

variable {nodes set : List α}

theorem unmarked_cons_lt {b : α} (hb : b ∈ nodes) (hset : ¬ set.contains b = true) :
    unmarked nodes (b :: set) < unmarked nodes set := by
  have hsub : ∀ l : List α, (l.filter fun c => !(b :: set).contains c).length ≤
      (l.filter fun c => !set.contains c).length := by
    intro l
    refine (monotone_filter_right l ?_).length_le
    intro c hc
    rw [contains_cons, Bool.not_or, Bool.and_eq_true_iff] at hc
    exact hc.2
  obtain ⟨before, after, rfl⟩ := append_of_mem hb
  have hfirst := hsub before
  have hrest := hsub after
  have hmarked : (!(b :: set).contains b) = false := by
    rw [contains_cons, beq_self_eq_true, Bool.true_or, Bool.not_true]
  have hfree : (!set.contains b) = true := by
    rw [(Bool.not_eq_true _).mp hset, Bool.not_false]
  unfold unmarked
  rw [filter_append, filter_append, filter_cons_of_neg (by rw [hmarked]; exact false_ne_true),
    filter_cons_of_pos (p := fun c => !set.contains c) hfree, length_append, length_append,
    length_cons]
  omega

theorem unmarked_mono {set' : List α} (h : set ⊆ set') :
    unmarked nodes set' ≤ unmarked nodes set := by
  refine (monotone_filter_right nodes ?_).length_le
  intro c hc
  rw [not_eq_true'] at hc ⊢
  rw [← not_eq_true, contains_iff_mem] at hc ⊢
  exact fun hmem => hc (h hmem)

structure Walked (next : α → List α) (a : α) (set set' : List α) : Prop where
  grows : set ⊆ set'
  sound : ∀ b ∈ set', b ∈ set ∨ Relation.TransGen (Edge next) a b
  fresh : ∀ b ∈ set', b ∉ set → ∀ c ∈ next b, c ∈ set'

section Level
variable {next : α → List α} {nodes : List α} (hnodes : ∀ a, ∀ b ∈ next a, b ∈ nodes)
include hnodes

theorem walked_visits {again : List α → α → List α} {n : Nat} {a : α}
    (hagain : ∀ set b, unmarked nodes set ≤ n →
      Walked next b set (again set b) ∧ ∀ c ∈ next b, c ∈ again set b)
    (list : List α) (hlist : ∀ b ∈ list, b ∈ next a) (set : List α)
    (hset : unmarked nodes set ≤ n + 1) :
    Walked next a set (list.foldl (visit again) set) ∧
      ∀ b ∈ list, b ∈ list.foldl (visit again) set := by
  induction list generalizing set with
  | nil =>
    refine ⟨⟨List.Subset.refl _, fun b hb => .inl hb, fun b hb hnot => absurd hb hnot⟩, ?_⟩
    simp
  | cons b list ih =>
    have hedge : b ∈ next a := hlist b mem_cons_self
    have hvisit : Walked next a set (visit again set b) ∧ b ∈ visit again set b := by
      unfold visit
      by_cases hb : set.contains b = true
      · rw [if_pos hb]
        refine ⟨⟨List.Subset.refl _, fun c hc => .inl hc, fun c hc hnot => absurd hc hnot⟩,
          contains_iff_mem.mp hb⟩
      rw [if_neg hb]
      have hless := unmarked_cons_lt (hnodes a b hedge) hb
      obtain ⟨hwalked, hnext⟩ := hagain (b :: set) b (by omega)
      have hself : b ∈ again (b :: set) b := hwalked.grows mem_cons_self
      refine ⟨⟨fun c hc => hwalked.grows (mem_cons_of_mem b hc), ?_, ?_⟩, hself⟩
      · intro c hc
        rcases hwalked.sound c hc with hc | hc
        · rcases mem_cons.mp hc with rfl | hc
          · exact .inr (.single hedge)
          · exact .inl hc
        · exact .inr (.head hedge hc)
      · intro c hc hnot d hd
        by_cases hcb : c = b
        · subst hcb
          exact hnext d hd
        refine hwalked.fresh c hc ?_ d hd
        intro hmem
        rcases mem_cons.mp hmem with h | h
        · exact hcb h
        · exact hnot h
    obtain ⟨hfirst, hmarked⟩ := hvisit
    have hroom : unmarked nodes (visit again set b) ≤ n + 1 :=
      Nat.le_trans (unmarked_mono hfirst.grows) hset
    obtain ⟨hrest, hall⟩ :=
      ih (fun c hc => hlist c (mem_cons_of_mem b hc)) (visit again set b) hroom
    refine ⟨⟨fun c hc => hrest.grows (hfirst.grows hc), ?_, ?_⟩, ?_⟩
    · intro c hc
      rcases hrest.sound c hc with hc | hc
      · exact hfirst.sound c hc
      · exact .inr hc
    · intro c hc hnot d hd
      by_cases hmid : c ∈ visit again set b
      · exact hrest.grows (hfirst.fresh c hmid hnot d hd)
      · exact hrest.fresh c hc hmid d hd
    · exact forall_mem_cons.mpr ⟨hrest.grows hmarked, hall⟩

theorem walked_walk (n : Nat) (set : List α) (a : α) (hset : unmarked nodes set ≤ n) :
    Walked next a set (walk next n set a) ∧ ∀ b ∈ next a, b ∈ walk next n set a := by
  induction n generalizing set a with
  | zero =>
    refine ⟨⟨List.Subset.refl _, fun b hb => .inl hb, fun b hb hnot => absurd hb hnot⟩, ?_⟩
    intro b hb
    by_contra hnot
    have hin : b ∈ nodes.filter fun c => !set.contains c := by
      refine mem_filter.mpr ⟨hnodes a b hb, ?_⟩
      rw [not_eq_true', ← not_eq_true, contains_iff_mem]
      exact hnot
    have hpos := length_pos_of_mem hin
    unfold unmarked at hset
    omega
  | succ n ih =>
    exact walked_visits hnodes (fun set b h => ih set b h) (next a) (fun _ h => h) set hset

theorem mem_walk_iff {n : Nat} {a : α} (hn : unmarked nodes set ≤ n) (ha : a ∈ set)
    (hset : ∀ b ∈ set, b ≠ a → next b = []) (c : α) :
    c ∈ walk next n set a ↔ c ∈ set ∨ Relation.ReflTransGen (Edge next) a c := by
  obtain ⟨hwalked, hnext⟩ := walked_walk hnodes n set a hn
  constructor
  · intro hc
    rcases hwalked.sound c hc with hc | hc
    · exact .inl hc
    · exact .inr hc.to_reflTransGen
  · rintro (hc | hc)
    · exact hwalked.grows hc
    have hclosed : ∀ b ∈ walk next n set a, ∀ d ∈ next b, d ∈ walk next n set a := by
      intro b hb d hd
      by_cases hba : b = a
      · subst hba
        exact hnext d hd
      · by_cases hbs : b ∈ set
        · simp [hset b hbs hba] at hd
        · exact hwalked.fresh b hb hbs d hd
    induction hc with
    | refl => exact hwalked.grows ha
    | tail _ hedge ih => exact hclosed _ ih _ hedge

end Level

theorem acyclic_add {α : Type} {E E' N : α → α → Prop} (hacyclic : ∀ a, ¬ Relation.TransGen E a a)
    (hadd : ∀ a b, E' a b → E a b ∨ N a b)
    (hnew : ∀ a b a' b', N a b → N a' b' → ¬ Relation.ReflTransGen E b a') (a : α) :
    ¬ Relation.TransGen E' a a := by
  have hpath : ∀ c, Relation.TransGen E' a c → Relation.TransGen E a c ∨
      ∃ x y, N x y ∧ Relation.ReflTransGen E a x ∧ Relation.ReflTransGen E y c := by
    intro c h
    induction h with
    | single h =>
      rcases hadd _ _ h with h | h
      · exact .inl (.single h)
      · exact .inr ⟨_, _, h, .refl, .refl⟩
    | tail _ hstep ih =>
      rcases hadd _ _ hstep with h | h
      · rcases ih with ih | ⟨x, y, hxy, hx, hy⟩
        · exact .inl (ih.tail h)
        · exact .inr ⟨x, y, hxy, hx, hy.tail h⟩
      · rcases ih with ih | ⟨x, y, hxy, _, hy⟩
        · exact .inr ⟨_, _, h, ih.to_reflTransGen, .refl⟩
        · exact absurd hy (hnew _ _ _ _ hxy h)
  intro h
  rcases hpath a h with h | ⟨x, y, hxy, hx, hy⟩
  · exact hacyclic a h
  · exact hnew _ _ _ _ hxy hxy (hy.trans hx)

end Marking
