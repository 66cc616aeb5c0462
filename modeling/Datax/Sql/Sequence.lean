import Mathlib.Tactic.Ring
import Mathlib.Tactic.Linarith
import Datax.Shared.Runs

/-!
# Sequences

Gateways advance a sequence's counter with `Increment`, a block of values at a time and outside any
transaction, and serve `nextval` from the block. An `Increment` whose reply is lost is sent again
and moves the counter twice. None of the 64-bit arithmetic is checked; over the integers the `i`-th
value is `Start + i * Increment`. The mutex makes a call one step, but for its `Increment`: other
gateways go on before it returns.
-/

namespace Datax.Sequence

structure SequenceDescriptor where
  name : String
  start : Int64
  increment : Int64
  minValue : Int64
  maxValue : Int64
  cycle : Bool
  cache : Int64

namespace SequenceDescriptor

/-- The bounds and the start that are not given follow from the sign of the increment. -/
def withDefaults (d : SequenceDescriptor) (minSet maxSet startSet : Bool) : SequenceDescriptor :=
  let minValue := if minSet then d.minValue else if d.increment < 0 then Int64.minValue + 1 else 1
  let maxValue := if maxSet then d.maxValue else if d.increment < 0 then -1 else Int64.maxValue
  let start := if startSet then d.start else if d.increment < 0 then maxValue else minValue
  { d with minValue := minValue, maxValue := maxValue, start := start }

def validate (d : SequenceDescriptor) : Except String SequenceDescriptor :=
  if d.maxValue ≤ d.minValue then
    .error ("MINVALUE (" ++ toString d.minValue.toInt ++ ") must be less than MAXVALUE (" ++
      toString d.maxValue.toInt ++ ")")
  else if d.start < d.minValue ∨ d.maxValue < d.start then
    .error ("START value (" ++ toString d.start.toInt ++ ") cannot be outside [" ++
      toString d.minValue.toInt ++ ", " ++ toString d.maxValue.toInt ++ "]")
  else if d.cache < 1 then .error ("CACHE (" ++ toString d.cache.toInt ++ ") must be at least 1")
  else .ok d

def normalize (d : SequenceDescriptor) (minSet maxSet startSet : Bool) :
    Except String SequenceDescriptor :=
  if d.increment = 0 then .error "INCREMENT must not be zero"
  else (d.withDefaults minSet maxSet startSet).validate

variable (d : SequenceDescriptor)

/-- `x` lies past `y` in the direction of the sequence. -/
def past (x y : Int64) : Bool := if 0 < d.increment then decide (y < x) else decide (x < y)

def bound : Int64 := if 0 < d.increment then d.maxValue else d.minValue

/-- The bound that a sequence with CYCLE starts again from. -/
def farBound : Int64 := if 0 < d.increment then d.minValue else d.maxValue

def step : Int64 := d.increment * d.cache

/-- The first value of the block that the counter's new value ends. -/
def first (newLast : Int64) : Int64 := newLast - d.step + d.increment

end SequenceDescriptor

/-- The values still to hand out: from `next` to `last`. -/
structure SeqBlock where
  next : Int64
  last : Int64
  incr : Int64

/-- A call of `takeSequenceBlock`; `late` if it began after a call had met the bound. -/
structure Call where
  attempt : Nat
  reply : Option Int64
  late : Bool

structure GatewayState where
  block : Option SeqBlock := none
  call : Option Call := none

abbrev Gateway := Nat

structure Returned where
  value : Int64
  late : Bool

structure State where
  counter : Int64
  increments : Nat
  gateways : Gateway → GatewayState
  returned : List Returned
  limitReached : Bool

inductive Action
  | nextval (g : Gateway)
  | increment (g : Gateway)
  | reply (g : Gateway)
  | fail (g : Gateway)

section Steps
variable (d : SequenceDescriptor)

def usable (b : SeqBlock) : Bool := b.incr == d.increment && !d.past b.next b.last

def newBlock (newLast : Int64) : SeqBlock where
  next := d.first newLast
  last := if d.past newLast d.bound then d.bound else newLast
  incr := d.increment

namespace State

def setGateway (s : State) (g : Gateway) (gs : GatewayState) : State :=
  { s with gateways := Function.update s.gateways g gs }

def handOut (s : State) (g : Gateway) (b : SeqBlock) (late : Bool) : State :=
  { s.setGateway g ⟨some { b with next := b.next + b.incr }, none⟩ with
    returned := ⟨b.next, late⟩ :: s.returned }

/-- `nextval` serves the block, or begins to take one. -/
def nextval (s : State) (g : Gateway) : Option State :=
  match (s.gateways g).call, (s.gateways g).block with
  | some _, _ => none
  | none, none => some (s.setGateway g ⟨none, some ⟨0, none, s.limitReached⟩⟩)
  | none, some b =>
    if usable d b then some (s.handOut g b false)
    else some (s.setGateway g ⟨some b, some ⟨0, none, s.limitReached⟩⟩)

def increment (s : State) (g : Gateway) : Option State :=
  (s.gateways g).call.map fun c =>
    let newLast := s.counter + d.step
    { s.setGateway g ⟨(s.gateways g).block, some { c with reply := some newLast }⟩ with
      counter := newLast
      increments := s.increments + 1 }

def reply (s : State) (g : Gateway) : Option State :=
  match (s.gateways g).call with
  | some ⟨attempt, some newLast, late⟩ =>
    if d.past (d.first newLast) d.bound then
      if !d.cycle || decide (0 < attempt) then
        some { s.setGateway g ⟨(s.gateways g).block, none⟩ with limitReached := true }
      else
        some { s.setGateway g ⟨(s.gateways g).block, some ⟨attempt + 1, none, late⟩⟩ with
          counter := d.farBound - d.increment }
    else some (s.handOut g (newBlock d newLast) late)
  | _ => none

def fail (s : State) (g : Gateway) : Option State :=
  (s.gateways g).call.map fun _ => s.setGateway g ⟨(s.gateways g).block, none⟩

end State

def stepOf (s : State) : Action → Option State
  | .nextval g => s.nextval d g
  | .increment g => s.increment d g
  | .reply g => s.reply d g
  | .fail g => s.fail g

def created : State where
  counter := d.start - d.increment
  increments := 0
  gateways := fun _ => {}
  returned := []
  limitReached := false

structure Sound (s : State) : Prop where
  bounds : ∀ r ∈ s.returned, d.minValue ≤ r.value ∧ r.value ≤ d.maxValue
  congruent : ∀ r ∈ s.returned, d.increment.toInt ∣ r.value.toInt - d.start.toInt
  unique : (s.returned.map Returned.value).Nodup
  final : ∀ r ∈ s.returned, r.late = false

end Steps

/-! ## Arithmetic that does not wrap -/

def fits (x : Int) : Bool := decide (-2 ^ 63 ≤ x ∧ x < 2 ^ 63)

theorem toInt_of_fits {x : Int} (h : fits x = true) : (Int64.ofInt x).toInt = x := by
  obtain ⟨hlo, hhi⟩ := of_decide_eq_true h
  exact Int64.toInt_ofInt_of_le hlo hhi

section Values
variable (d : SequenceDescriptor)

def nth (i : Nat) : Int := d.start.toInt + i * d.increment.toInt

def blockSize : Nat := d.cache.toInt.toNat

def counterAfter (n : Nat) : Int :=
  d.start.toInt - d.increment.toInt + n * (d.increment.toInt * d.cache.toInt)

def Beyond (x : Int) : Prop :=
  if 0 < d.increment.toInt then d.maxValue.toInt < x else x < d.minValue.toInt

structure Normal : Prop where
  increment : d.increment.toInt ≠ 0
  start : d.minValue.toInt ≤ d.start.toInt ∧ d.start.toInt ≤ d.maxValue.toInt
  cache : 1 ≤ d.cache.toInt

/-- The step computes with numbers that fit: the counter as it will be, and the value that
follows the one handed out. -/
def exact (s : State) : Action → Bool
  | .increment _ => fits (counterAfter d (s.increments + 1))
  | .nextval g =>
    (s.gateways g).block.all fun b => !usable d b || fits (b.next.toInt + d.increment.toInt)
  | .reply g => (s.gateways g).call.all fun c => c.reply.all fun newLast =>
      d.past (d.first newLast) d.bound || fits ((d.first newLast).toInt + d.increment.toInt)
  | .fail _ => true

end Values

section Lemmas
variable {d : SequenceDescriptor} {minSet maxSet startSet : Bool}

theorem normal_of_validate (d₀ : SequenceDescriptor) (hinc : d₀.increment ≠ 0)
    (h : d₀.validate = .ok d) :
    Normal d := by
  unfold SequenceDescriptor.validate at h
  split_ifs at h with _ hstart hcache
  cases h
  rw [not_or] at hstart
  constructor
  case increment =>
    intro hzero
    exact hinc (Int64.toInt_inj.mp hzero)
  case start =>
    exact ⟨Int64.le_iff_toInt_le.mp (Int64.not_lt.mp hstart.1),
      Int64.le_iff_toInt_le.mp (Int64.not_lt.mp hstart.2)⟩
  case cache => exact Int64.le_iff_toInt_le.mp (Int64.not_lt.mp hcache)

theorem normal_of_normalize {d₀ : SequenceDescriptor}
    (h : d₀.normalize minSet maxSet startSet = .ok d) :
    Normal d := by
  unfold SequenceDescriptor.normalize at h
  split_ifs at h with hinc
  exact normal_of_validate (d₀.withDefaults minSet maxSet startSet) hinc h

theorem increment_pos_iff : 0 < d.increment ↔ 0 < d.increment.toInt := Int64.lt_iff_toInt_lt

theorem past_iff_of_pos (h : 0 < d.increment.toInt) {x y : Int64} :
    d.past x y = true ↔ y.toInt < x.toInt := by
  unfold SequenceDescriptor.past
  rw [if_pos (increment_pos_iff.mpr h), decide_eq_true_iff, Int64.lt_iff_toInt_lt]

theorem past_iff_of_nonpos (h : ¬ 0 < d.increment.toInt) {x y : Int64} :
    d.past x y = true ↔ x.toInt < y.toInt := by
  unfold SequenceDescriptor.past
  rw [if_neg (mt increment_pos_iff.mp h), decide_eq_true_iff, Int64.lt_iff_toInt_lt]

theorem past_bound_iff {x : Int64} : d.past x d.bound = true ↔ Beyond d x.toInt := by
  unfold Beyond SequenceDescriptor.bound
  by_cases hpos : 0 < d.increment.toInt
  · rw [past_iff_of_pos hpos, if_pos hpos, if_pos (increment_pos_iff.mpr hpos)]
  · rw [past_iff_of_nonpos hpos, if_neg hpos, if_neg (mt increment_pos_iff.mp hpos)]

theorem Beyond.mono {i j : Nat} (hij : i ≤ j) (h : Beyond d (nth d i)) : Beyond d (nth d j) := by
  unfold Beyond nth at h ⊢
  split at h
  · rename_i hpos
    rw [if_pos hpos]
    nlinarith
  · rename_i hpos
    rw [if_neg hpos]
    nlinarith

section
variable (hd : Normal d)
include hd

theorem within_of_not_beyond {i : Nat} (h : ¬ Beyond d (nth d i)) :
    d.minValue.toInt ≤ nth d i ∧ nth d i ≤ d.maxValue.toInt := by
  obtain ⟨hmin, hmax⟩ := hd.start
  unfold Beyond at h
  split at h
  · rename_i hpos
    refine ⟨?_, not_lt.mp h⟩
    unfold nth
    nlinarith
  · rename_i hpos
    refine ⟨not_lt.mp h, ?_⟩
    unfold nth
    nlinarith

theorem nth_inj {i j : Nat} (h : nth d i = nth d j) : i = j := by
  unfold nth at h
  have hmul : ((i : Int) - j) * d.increment.toInt = 0 := by linarith
  rcases mul_eq_zero.mp hmul with hz | hz
  · omega
  · exact absurd hz hd.increment

theorem blockSize_pos : 0 < blockSize d := by
  have := hd.cache
  unfold blockSize
  omega

theorem cast_blockSize : (blockSize d : Int) = d.cache.toInt := by
  have := hd.cache
  unfold blockSize
  omega

theorem counterAfter_add (n : Nat) :
    counterAfter d n + d.increment.toInt = nth d (n * blockSize d) := by
  unfold counterAfter nth
  rw [Nat.cast_mul, cast_blockSize hd]
  ring

end

theorem counterAfter_succ (n : Nat) :
    counterAfter d (n + 1) = counterAfter d n + d.increment.toInt * d.cache.toInt := by
  unfold counterAfter
  push_cast
  ring

theorem nth_succ (i : Nat) : nth d (i + 1) = nth d i + d.increment.toInt := by
  unfold nth
  push_cast
  ring

theorem ofInt_counterAfter_succ (n : Nat) :
    Int64.ofInt (counterAfter d n) + d.step = Int64.ofInt (counterAfter d (n + 1)) := by
  rw [counterAfter_succ, Int64.ofInt_add, Int64.ofInt_mul, Int64.ofInt_toInt, Int64.ofInt_toInt]
  rfl

theorem first_eq (hd : Normal d) {m : Nat} {newLast : Int64}
    (h : newLast.toInt = counterAfter d (m + 1)) :
    d.first newLast = Int64.ofInt (nth d (m * blockSize d)) := by
  have hlast : newLast = Int64.ofInt (counterAfter d m) + d.step := by
    rw [ofInt_counterAfter_succ, ← h, Int64.ofInt_toInt]
  unfold SequenceDescriptor.first
  rw [hlast, Int64.add_sub_cancel, ← counterAfter_add hd, Int64.ofInt_add, Int64.ofInt_toInt]

end Lemmas

end Datax.Sequence
