import Datax.Sql.KeyDecode

/-!
# Range-local addressed keys

A transaction record is stored under its anchor key, escaped. The span of a range runs
between the escaped bounds with the terminator cut off, and holds the records of the anchors
in the range and no others.
-/

namespace Datax.Key

open List PrefixCode Encoding

def localPrefixByte : Byte := 0x01

def localAddressedPrefix : Key := [localPrefixByte, 0x6b]

def isLocal (k : Key) : Bool := k.head? == some localPrefixByte

/-- The bytes of `txn`. -/
def txnTag : Key := [0x74, 0x78, 0x6e]

def transactionKey (anchor : Key) (txnID : UUID) : Key :=
  localAddressedPrefix ++ (encodeBytes anchor ++ (txnTag ++ bigEndian 16 txnID.toNat))

def isTransactionKey (k : Key) : Bool :=
  localAddressedPrefix.isPrefixOf k &&
    (decodeBytes (k.drop localAddressedPrefix.length)).any fun p =>
      p.1.length == 3 + 16 && p.1.take 3 == txnTag

inductive AddrError where
  | malformed (k : Key)
  | notAddressable (k : Key)

def addr (k : Key) : Except AddrError Key :=
  if !isLocal k then .ok k
  else if localAddressedPrefix.isPrefixOf k then
    match decodeBytes (k.drop localAddressedPrefix.length) with
    | some (_, a) => .ok a
    | none => .error (.malformed k)
  else .error (.notAddressable k)

/-- The encoded bound without its terminator. -/
def addressedBound (k : Key) : Key :=
  let s := localAddressedPrefix ++ encodeBytes k
  s.take (s.length - 2)

def rangeLocalAddressedSpan (start stop : Key) : Key × Key :=
  (addressedBound start, addressedBound stop)

def InSpan (k : Key) (span : Key × Key) : Prop := span.1 ≤ k ∧ k < span.2

variable (anchor : Key) (txnID : UUID)

theorem transactionKey_lt_bound (b : Key) :
    transactionKey anchor txnID < addressedBound b ↔ anchor < b := by
  have hbound : addressedBound b = localAddressedPrefix ++ escaped b := by
    rw [addressedBound, encodeBytes_eq, ← append_assoc]
    exact take_left' (by simp only [length_append, length_cons, length_nil]; omega)
  rw [hbound, transactionKey, append_lt_append_left_iff, encodeBytes_append_lt_iff]

theorem inSpan_transactionKey (start stop : Key) :
    InSpan (transactionKey anchor txnID) (rangeLocalAddressedSpan start stop) ↔
      start ≤ anchor ∧ anchor < stop := by
  unfold InSpan rangeLocalAddressedSpan
  rw [← not_lt, transactionKey_lt_bound, transactionKey_lt_bound, not_lt]

/-- The records of a range are in its span, and the spans of the two halves of a
split share them out. -/
theorem rangeLocalAddressedSpan_exact (start stop : Key) :
    (InSpan (transactionKey anchor txnID) (rangeLocalAddressedSpan start stop) ↔
      start ≤ anchor ∧ anchor < stop) ∧
    addr (transactionKey anchor txnID) = .ok anchor ∧
      isTransactionKey (transactionKey anchor txnID) = true ∧
    ∀ split, start < split → split < stop →
      let InHalf := fun a b => InSpan (transactionKey anchor txnID) (rangeLocalAddressedSpan a b)
      (InHalf start stop ↔ InHalf start split ∨ InHalf split stop) ∧
        ¬ (InHalf start split ∧ InHalf split stop) := by
  have hdecode : decodeBytes ((transactionKey anchor txnID).drop localAddressedPrefix.length) =
      some (txnTag ++ bigEndian 16 txnID.toNat, anchor) := by
    rw [transactionKey, drop_left, decodeBytes_encodeBytes]
  have hprefix : localAddressedPrefix.isPrefixOf (transactionKey anchor txnID) = true :=
    isPrefixOf_iff_prefix.mpr (prefix_append _ _)
  have hlocal : isLocal (transactionKey anchor txnID) = true := rfl
  refine ⟨inSpan_transactionKey anchor txnID start stop, ?_, ?_, ?_⟩
  · simp [addr, hlocal, hprefix, hdecode]
  · simp [isTransactionKey, hprefix, hdecode, length_bigEndian, txnTag]
  · intro split hstart hstop
    simp only [inSpan_transactionKey]
    refine ⟨⟨?_, ?_⟩, fun h => absurd h.1.2 (not_lt.mpr h.2.1)⟩
    · rintro ⟨hlow, hhigh⟩
      rcases lt_or_ge anchor split with hlt | hge
      · exact .inl ⟨hlow, hlt⟩
      · exact .inr ⟨hge, hhigh⟩
    · rintro (⟨hlow, hlt⟩ | ⟨hge, hhigh⟩)
      · exact ⟨hlow, hlt.trans hstop⟩
      · exact ⟨hstart.le.trans hge, hhigh⟩

theorem rangeLocalAddressedSpan_exact_between :
    ¬ (InSpan (transactionKey [3] 0) (rangeLocalAddressedSpan [] [2]) ∧
      InSpan (transactionKey [3] 0) (rangeLocalAddressedSpan [2] [4])) :=
  ((rangeLocalAddressedSpan_exact [3] 0 [] [4]).2.2.2 [2] (by decide) (by decide)).2

end Datax.Key
