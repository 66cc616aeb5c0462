import Datax.Util.DecimalText

/-!
# JSON containment

A document as `encoding/json` decodes it: an object's members are a map, a number keeps its
text. Below the top level, containment relates documents of one shape; the top level adds
arrays that contain a scalar. Numbers are compared by what `Parse` makes of them and, where it
refuses one, by their texts.
-/

namespace Datax

inductive Json
  | null
  | bool (b : Bool)
  | number (n : Literal)
  | string (s : String)
  | array (n : Nat) (elems : Fin n → Json)
  | object (keys : Finset String) (vals : {k // k ∈ keys} → Json)

namespace Json

def jsonScalarEqual : Json → Json → Bool
  | .number l, .number r =>
    match Dec.parse l.text, Dec.parse r.text with
    | some ld, some rd => Dec.cmp ld rd == .eq
    | _, _ => l.text == r.text
  | .string l, .string r => l == r
  | .bool l, .bool r => l == r
  | .null, .null => true
  | _, _ => false

/-- The right side is a scalar: at the top level an array contains it as an element. -/
def containsScalar (topLevel : Bool) : Json → Json → Bool
  | .array _ lelems, r => topLevel && decide (∃ j, jsonScalarEqual (lelems j) r = true)
  | l, r => jsonScalarEqual l r

def jsonContains (topLevel : Bool) : Json → Json → Bool
  | .object lkeys lvals, .object _ vals =>
    decide (∀ k, ∃ h : k.1 ∈ lkeys, jsonContains false (lvals ⟨k.1, h⟩) (vals k) = true)
  | _, .object _ _ => false
  | .array _ lelems, .array _ elems =>
    decide (∀ i, ∃ j, jsonContains false (lelems j) (elems i) = true)
  | _, .array _ _ => false
  | l, r => containsScalar topLevel l r

def jsonbContains : Json → Json → Bool := jsonContains true

/-- What a scalar is compared by. -/
inductive ScalarKey
  | null
  | bool (b : Bool)
  | string (s : String)
  | number (n : Dec ⊕ List Char)

def key : Json → Option ScalarKey
  | .null => some .null
  | .bool b => some (.bool b)
  | .string s => some (.string s)
  | .number n => some (.number ((Dec.parse n.text).elim (.inr n.text) .inl))
  | _ => none

/-- The elements of arrays in another order and with other repetitions, at any depth. -/
inductive Rearranged : Json → Json → Prop
  | scalar {x : Json} (h : x.key ≠ none) : Rearranged x x
  | array {m n : Nat} {a : Fin m → Json} {b : Fin n → Json} (forth : Fin m → Fin n)
    (back : Fin n → Fin m)
      (hforth : ∀ i, Rearranged (a i) (b (forth i))) (hback : ∀ j, Rearranged (a (back j)) (b j)) :
      Rearranged (.array m a) (.array n b)
  | object {keys : Finset String} {v w : {k // k ∈ keys} → Json} (h : ∀ k, Rearranged (v k) (w k)) :
      Rearranged (.object keys v) (.object keys w)

variable {x y z x' y' l r : Json}

theorem jsonScalarEqual_iff : jsonScalarEqual l r = true ↔ l.key ≠ none ∧ l.key = r.key := by
  cases l <;> cases r <;> simp [jsonScalarEqual, key]
  case number.number l r =>
    cases hl : Dec.parse l.text <;> cases hr : Dec.parse r.text <;> simp
    · intro h
      simp [h, hr] at hl
    · intro h
      simp [h, hr] at hl
    · rw [Dec.cmp_eq, compare_eq_iff_eq]
      exact ⟨Dec.eq_of_value_eq (canonical_parse hl) (canonical_parse hr), congrArg _⟩

variable {top : Bool}

theorem exists_of_array {n : Nat} {elems : Fin n → Json}
    (h : jsonContains top l (.array n elems) = true) :
    ∃ m lelems, l = .array m lelems ∧ ∀ i, ∃ j, jsonContains false (lelems j) (elems i) = true := by
  cases l with
  | array m lelems => exact ⟨m, lelems, rfl, of_decide_eq_true h⟩
  | _ => cases h

theorem exists_of_object {keys : Finset String} {vals : {k // k ∈ keys} → Json}
    (h : jsonContains top l (.object keys vals) = true) : ∃ lkeys lvals, l = .object lkeys lvals ∧
      ∀ k, ∃ h : k.1 ∈ lkeys, jsonContains false (lvals ⟨k.1, h⟩) (vals k) = true := by
  cases l with
  | object lkeys lvals => exact ⟨lkeys, lvals, rfl, of_decide_eq_true h⟩
  | _ => cases h

theorem containsScalar_iff (hr : r.key ≠ none) : containsScalar top l r = true ↔
    l.key = r.key ∨ top = true ∧ ∃ n elems, l = .array n elems ∧ ∃ j, (elems j).key = r.key := by
  have hscalar : ∀ {x : Json}, jsonScalarEqual x r = true ↔ x.key = r.key :=
    jsonScalarEqual_iff.trans (and_iff_right_of_imp fun heq => heq ▸ hr)
  cases l with
  | array n elems =>
    rw [or_iff_right fun h => hr h.symm, containsScalar, Bool.and_eq_true, decide_eq_true_eq]
    refine and_congr_right' ⟨?_, ?_⟩
    · rintro ⟨j, h⟩
      exact ⟨n, elems, rfl, j, hscalar.1 h⟩
    · rintro ⟨_, _, heq, j, h⟩
      cases heq
      exact ⟨j, hscalar.2 h⟩
  | _ =>
    rw [or_iff_left (by rintro ⟨-, _, _, ⟨⟩, -⟩), ← hscalar]
    rfl

theorem contains_scalar (hr : r.key ≠ none) : jsonContains top l r = true ↔
    l.key = r.key ∨ top = true ∧ ∃ n elems, l = .array n elems ∧ ∃ j, (elems j).key = r.key := by
  cases r with
  | array | object => exact absurd rfl hr
  | _ => cases l <;> exact containsScalar_iff hr

theorem jsonContains_self (x : Json) : jsonContains top x x = true := by
  induction x generalizing top with
  | array n elems ih => exact decide_eq_true fun i => ⟨i, ih i⟩
  | object keys vals ih => exact decide_eq_true fun k => ⟨k.2, ih k⟩
  | _ => exact (contains_scalar (by simp [key])).2 (.inl rfl)

theorem jsonContains_trans_scalar (hz : z.key ≠ none) (h : jsonContains top x y = true)
    (h' : jsonContains top y z = true) : jsonContains top x z = true := by
  rw [contains_scalar hz] at h' ⊢
  rcases h' with heq | ⟨htop, n, elems, rfl, j, hj⟩
  · rwa [contains_scalar (heq ▸ hz), heq] at h
  · obtain ⟨m, lelems, rfl, hxy⟩ := exists_of_array h
    obtain ⟨i, hi⟩ := hxy j
    rw [contains_scalar (hj ▸ hz), hj] at hi
    exact .inr ⟨htop, m, lelems, rfl, i, hi.resolve_right (by simp)⟩

theorem jsonContains_trans (h : jsonContains top x y = true) (h' : jsonContains top y z = true) :
    jsonContains top x z = true := by
  induction z generalizing x y top with
  | array n elems ih =>
    obtain ⟨_, _, rfl, hyz⟩ := exists_of_array h'
    obtain ⟨_, _, rfl, hxy⟩ := exists_of_array h
    refine decide_eq_true fun i => ?_
    obtain ⟨j, hj⟩ := hyz i
    exact (hxy j).imp fun _ hj' => ih i hj' hj
  | object keys vals ih =>
    obtain ⟨_, _, rfl, hyz⟩ := exists_of_object h'
    obtain ⟨_, _, rfl, hxy⟩ := exists_of_object h
    refine decide_eq_true fun k => ?_
    obtain ⟨hmem, hk⟩ := hyz k
    exact (hxy ⟨k.1, hmem⟩).imp fun _ hk' => ih k hk' hk
  | _ => exact jsonContains_trans_scalar (by simp [key]) h h'

theorem Rearranged.contains (h : Rearranged x y) :
    jsonContains top x y = true ∧ jsonContains top y x = true := by
  induction h generalizing top with
  | scalar => exact ⟨jsonContains_self _, jsonContains_self _⟩
  | array f g _ _ hf hg =>
    exact ⟨decide_eq_true fun j => ⟨g j, (hg j).1⟩, decide_eq_true fun i => ⟨f i, (hf i).2⟩⟩
  | object _ ih =>
    exact ⟨decide_eq_true fun k => ⟨k.2, (ih k).1⟩, decide_eq_true fun k => ⟨k.2, (ih k).2⟩⟩

theorem jsonbContains_number (a b : Literal) : jsonbContains (.number a) (.number b) = true ↔
    if a.Readable ∧ b.Readable then a.value = b.value else a.text = b.text := by
  have hparse := fun l : Literal => l.parse_text l.trimSpace_text
  change jsonScalarEqual (.number a) (.number b) = true ↔ _
  rw [jsonScalarEqual, hparse, hparse]
  by_cases ha : a.Readable
  · by_cases hb : b.Readable
    · simp only [ha, hb, if_true, and_self, beq_iff_eq, Dec.cmp_eq, compare_eq_iff_eq,
        (Dec.canon_spec _ _).2]
      rfl
    · simp [ha, hb]
  · simp [ha]

theorem jsonbContains_laws_iff (x y z x' y' : Json) (a b : Literal) :
    (jsonbContains x x = true ∧
        (jsonbContains x y = true → jsonbContains y z = true → jsonbContains x z = true) ∧
        (Rearranged x x' → Rearranged y y' → jsonbContains x y = jsonbContains x' y') ∧
        (jsonbContains (.number a) (.number b) = true ∧
          jsonbContains (.number b) (.number a) = true ↔
          a.value = b.value)) ↔
      (a.value = b.value → a.Readable ∧ b.Readable ∨ a.text = b.text) := by
  have hrearranged : Rearranged x x' → Rearranged y y' →
      jsonbContains x y = jsonbContains x' y' := by
    intro hx hy
    rw [Bool.eq_iff_iff]
    constructor
    · exact fun h => jsonContains_trans hx.contains.2 (jsonContains_trans h hy.contains.1)
    · exact fun h => jsonContains_trans hx.contains.1 (jsonContains_trans h hy.contains.2)
  refine Iff.trans
    ⟨fun h => h.2.2.2, fun h => ⟨jsonContains_self x, jsonContains_trans, hrearranged, h⟩⟩ ?_
  rw [jsonbContains_number, jsonbContains_number]
  have htext : a.text = b.text → a.value = b.value := Literal.value_eq_of_text
  by_cases h : a.Readable ∧ b.Readable
  · simp [h, eq_comm]
  · rw [if_neg h, if_neg (mt And.symm h), or_iff_right h]
    constructor
    · exact fun hiff heq => (hiff.2 heq).1
    · exact fun heq => ⟨fun ht => htext ht.1, fun hv => ⟨heq hv, (heq hv).symm⟩⟩

def scientific (int ds : List Char) (hint : int ≠ [] ∧ ∀ c ∈ int, c.isDigit = true)
    (hds : ds ≠ [] ∧ ∀ c ∈ ds, c.isDigit = true) : Literal :=
  ⟨⟨none, int, none, by simpa using hint⟩, _, _, .given (c := 'e') rfl none hds.1 hds.2⟩

theorem equal_numbers_apart :
    let a := scientific ['1'] ['2', '0', '0', '1'] (by simp) (by simp)
    let b := scientific ['1', '0'] ['2', '0', '0', '0'] (by simp) (by simp)
    a.value = b.value ∧ jsonbContains (.number a) (.number b) = false := by
  refine ⟨?_, by decide⟩
  change ((1 : Int) : ℚ) * 10 ^ (2001 : Int) = (10 : Int) * 10 ^ (2000 : Int)
  rw [Int.cast_one, one_mul, mul_comm]
  exact zpow_add_one₀ (by norm_num) 2000

end Json

end Datax
