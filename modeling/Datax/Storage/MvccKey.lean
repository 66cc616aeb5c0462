import Datax.Hlc.Timestamp
import Datax.Keys.PrefixEnd
import Datax.Sql.KeyDecode
import Mathlib.Data.List.ModifyLast

/-!
# Engine keys

An engine key is a user key, escaped, followed by the inverted timestamp of a version; the metadata
key has no timestamp. The keys of one user key are those between its bounds, newest version first.
-/

namespace Datax

open List PrefixCode Encoding Key

/-- The `n` bytes of `^v`, the largest value less `v`. -/
def inverted (n v : Nat) : Key := bigEndian n (256 ^ n - 1 - v)

def appendVersionSuffix (b : Key) (ts : Timestamp) : Key :=
  b ++ (inverted 8 ts.wallTime ++ inverted 4 ts.logical)

def encodeMVCCKey (key : Key) (ts : Timestamp) : Key :=
  if ts.isEmpty then encodeBytes key else appendVersionSuffix (encodeBytes key) ts

def mvccKeyBounds (k : Key) : Key × Key :=
  let lower := encodeBytes k
  (lower, lower.modifyLast (· + 1))

def uninverted (b : Key) : Nat := 256 ^ b.length - 1 - decodeUint64 b

/-- The user key and the signed fields of its timestamp. -/
def decodeMVCCKey (enc : Key) : Option (Key × Int × Int) :=
  (decodeBytes enc).bind fun (rest, user) =>
    if rest.length = 0 then some (user, 0, 0)
    else if rest.length = 12 then
      some (user, (uninverted (rest.take 8) : Int).bmod (2 ^ 64),
        (uninverted (rest.drop 8) : Int).bmod (2 ^ 32))
    else none

theorem length_inverted (n v : Nat) : (inverted n v).length = n := length_bigEndian n _

section Inverted
variable {n v w : Nat} (hv : v < 256 ^ n)
include hv

theorem inverted_lt_iff (hw : w < 256 ^ n) : inverted n v < inverted n w ↔ w < v := by
  unfold inverted
  rw [bigEndian_lt_iff n (by omega) (by omega)]
  omega

theorem inverted_eq_iff (hw : w < 256 ^ n) : inverted n v = inverted n w ↔ w = v :=
  ⟨eq_of_lt_iff (inverted_lt_iff hv hw) (inverted_lt_iff hw hv), fun h => by rw [h]⟩

theorem uninverted_inverted : uninverted (inverted n v) = v := by
  rw [uninverted, length_inverted, inverted, decodeUint64, decodeUint64_bigEndian,
    Nat.mod_eq_of_lt (by omega)]
  omega

end Inverted

variable {s t : Timestamp}

theorem version_lt_iff (hs : s.wallTime < 2 ^ 63) (ht : t.wallTime < 2 ^ 63) (b : Key) :
    appendVersionSuffix b s < appendVersionSuffix b t ↔ t < s := by
  unfold appendVersionSuffix
  rw [append_lt_append_left_iff,
    append_lt_append_iff (.of_length (by rw [length_inverted, length_inverted])),
    inverted_lt_iff (by omega) (by omega), inverted_lt_iff (by omega) (by omega),
    inverted_eq_iff (by omega) (by omega), Timestamp.lt_iff]

def versionSuffix (t : Timestamp) : Key := if t.isEmpty then [] else appendVersionSuffix [] t

theorem encodeMVCCKey_eq (k : Key) (t : Timestamp) :
    encodeMVCCKey k t = encodeBytes k ++ versionSuffix t := by
  unfold encodeMVCCKey versionSuffix
  split
  · rw [append_nil]
  · rfl

theorem versionSuffix_lt_iff (hs : s.wallTime < 2 ^ 63) (ht : t.wallTime < 2 ^ 63) :
    versionSuffix s < versionSuffix t ↔ t.isEmpty = false ∧ (s.isEmpty = true ∨ t < s) := by
  unfold versionSuffix
  cases hte : t.isEmpty with
  | true => simp
  | false =>
    cases hse : s.isEmpty with
    | true => simp [appendVersionSuffix, inverted, bigEndian]
    | false => simpa using version_lt_iff hs ht []

theorem decodeMVCCKey_encodeMVCCKey (k : Key) (ht : t.wallTime < 2 ^ 63) :
    decodeMVCCKey (encodeMVCCKey k t) = some (k, (t.wallTime : Int), (t.logical : Int)) := by
  rw [encodeMVCCKey_eq, decodeMVCCKey, decodeBytes_encodeBytes, Option.bind_some, versionSuffix]
  cases he : t.isEmpty with
  | true =>
    simp [Timestamp.isEmpty] at he
    simp [he]
  | false =>
    have hlen := length_inverted 8 t.wallTime
    rw [if_neg (by decide), appendVersionSuffix, nil_append]
    dsimp only
    rw [if_neg (by simp [length_inverted]),
      if_pos (by simp [length_inverted]), take_left' hlen, drop_left' hlen,
      uninverted_inverted (by omega), uninverted_inverted (by omega),
      Int.bmod_eq_of_le (by omega) (by omega), Int.bmod_eq_of_le (by omega) (by omega)]

theorem upper_mvccKeyBounds (k : Key) : (mvccKeyBounds k).2 = escaped k ++ [0, 2] := by
  rw [mvccKeyBounds, encodeBytes_eq, append_cons, modifyLast_concat]
  exact append_assoc _ [escape] [terminator + 1]

theorem mem_mvccKeyBounds_iff (j k : Key) (s : Timestamp) :
    (mvccKeyBounds k).1 ≤ encodeMVCCKey j s ∧ encodeMVCCKey j s < (mvccKeyBounds k).2 ↔ j = k := by
  rw [upper_mvccKeyBounds, encodeMVCCKey_eq]
  constructor
  · rintro ⟨hlow, hhigh⟩
    have hinc : increment (encodeBytes k) = some (escaped k ++ [0, 2]) := by
      rw [encodeBytes_eq]
      exact increment_append _ rfl
    obtain ⟨r, hr⟩ := prefix_of_lt_increment hinc hlow hhigh
    exact (encodeBytes_append_inj hr).symm
  · rintro rfl
    have hlow :=
      (append_lt_append_left_iff (encodeBytes j) (versionSuffix s) []).not.mpr (not_lt_nil _)
    rw [append_nil] at hlow
    refine ⟨not_lt.mp hlow, ?_⟩
    rw [encodeBytes_eq, append_assoc, append_lt_append_left_iff]
    exact List.Lex.cons (List.Lex.rel (by decide))

theorem engineKeys_ordered (j k : Key) (hs : s.wallTime < 2 ^ 63) (ht : t.wallTime < 2 ^ 63) :
    (encodeMVCCKey j s < encodeMVCCKey k t ↔
      j < k ∨ j = k ∧ t.isEmpty = false ∧ (s.isEmpty = true ∨ t < s)) ∧
    decodeMVCCKey (encodeMVCCKey k t) = some (k, (t.wallTime : Int), (t.logical : Int)) ∧
    ((mvccKeyBounds k).1 ≤ encodeMVCCKey j s ∧
      encodeMVCCKey j s < (mvccKeyBounds k).2 ↔ j = k) := by
  refine ⟨?_, decodeMVCCKey_encodeMVCCKey k ht, mem_mvccKeyBounds_iff j k s⟩
  rw [encodeMVCCKey_eq, encodeMVCCKey_eq, append_lt_append_iff (apart_encodeBytes j k),
    encodeBytes_lt_iff, strictMono_encodeBytes.injective.eq_iff, versionSuffix_lt_iff hs ht]

theorem engineKeys_ordered_versions : encodeMVCCKey [0] ⟨2, 0⟩ < encodeMVCCKey [0] ⟨1, 0⟩ :=
  (engineKeys_ordered [0] [0] (s := ⟨2, 0⟩) (t := ⟨1, 0⟩) (by decide) (by decide)).1.mpr
    (.inr ⟨rfl, rfl, .inr (by decide)⟩)

end Datax
