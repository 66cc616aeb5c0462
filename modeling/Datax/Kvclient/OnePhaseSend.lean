import Datax.Shared.Runs
import Datax.Kvserver.OnePhase

/-!
# Deliveries of a one-phase commit

The batch of a one-phase commit is delivered until an answer is heard, and each delivery that
enters the log is evaluated there. Nothing marks a batch that was evaluated before: a second
evaluation meets the versions of the first, is refused as too old, and the client moves its
timestamp and sends again.
-/

namespace Datax.OnePhaseSend

open Bool

inductive Refusal where
  | unreachable
  | notLeader
  | storageOverloaded
  | rangeNotFound
  | rangeKeyMismatch
  | kv (err : KVError)

inductive Outcome where
  | committed (ts : Timestamp)
  -- a `RetryableError`: `RunTxn` runs the closure again
  | retryable
  | failed
  -- not handled: `Commit` goes on with `parallelCommit`
  | classic
deriving DecidableEq

inductive Phase where
  | ready
  | awaiting
  | done (o : Outcome)
deriving DecidableEq

structure Application where
  ts : Timestamp
  before : Key → KeyHistory
  after : Key → KeyHistory

structure State where
  record : Option Transaction
  data : Key → KeyHistory
  txn : Transaction
  deadline : Timestamp
  phase : Phase
  -- the deliveries made; the client waits for the last one only
  sent : Nat
  log : List (Nat × Transaction)
  answer : Option (Except KVError EndTxnResponse)
  lastErr : Option Refusal
  waited : Nat
  refreshes : Nat
  applied : List Application

def conflictBudget : Nat := 10000

def maxRefreshesPerOp : Nat := 10

inductive PushVerdict where
  | failed | resolvedAll | deadlocked | live
deriving DecidableEq

/-- What the client learns while it handles an error: the fate of the pushes, the
clock, and whether the refresh requests were accepted. -/
structure Choice where
  push : PushVerdict := .live
  now : Timestamp := ⊥
  refreshed : Bool := false

def retryTimestamp (now : Timestamp) : KVError → Option Timestamp
  | .storage (.writeTooOld _ actual) => some (now.forward actual)
  | .storage (.uncertainty _ existing) => some (now.forward existing.next)
  | .txnRetry _ ts => some (now.forward ts)
  | _ => none

def State.finish (s : State) (o : Outcome) : State := { s with phase := .done o }

def State.again (s : State) : State := { s with phase := .ready, answer := none, lastErr := none }

def maybeRefresh (s : State) (newTS : Timestamp) (refreshed : Bool) : Option Transaction :=
  if newTS.lessEq s.txn.readTimestamp then some s.txn
  else if refreshed then
    some { s.txn with readTimestamp := newTS, writeTimestamp := s.txn.writeTimestamp.forward newTS }
  else none

def refreshOrRetry (s : State) (newTS : Timestamp) (refreshed : Bool) : State :=
  if s.refreshes < maxRefreshesPerOp then
    match maybeRefresh s newTS refreshed with
    | some txn => { s.again with txn := txn, refreshes := s.refreshes + 1 }
    | none => s.finish .retryable
  else s.finish .retryable

def handle (s : State) (c : Choice) (err : KVError) : State :=
  match err with
  | .storage (.writeIntent _) =>
    match c.push with
    | .failed => s.finish .failed
    | .resolvedAll => s.again
    | .deadlocked => s.finish .retryable
    | .live =>
      if conflictBudget ≤ s.waited then s.finish .retryable
      else { s.again with waited := s.waited + 100 }
  | .txnAborted _ => s.finish .retryable
  | err =>
    match retryTimestamp c.now err with
    | some newTS => refreshOrRetry s newTS c.refreshed
    | none => s.finish .failed

/-- What `sendToRange` returned goes through `sendPartial` and `sendSingleRange`. -/
def returned (s : State) (c : Choice) : Refusal → State
  | .rangeNotFound => s.finish .classic
  | .rangeKeyMismatch => s.finish .classic
  -- a write that was shed carries a `TxnRetryError` as well
  | .storageOverloaded => refreshOrRetry s c.now c.refreshed
  | .kv err => handle s c err
  | .unreachable => s.finish .failed
  | .notLeader => s.finish .failed

def Refusal.loops : Refusal → Bool
  | .unreachable => true
  | .notLeader => true
  | .storageOverloaded => true
  | .rangeNotFound => true
  | .rangeKeyMismatch => false
  | .kv _ => false

inductive Action where
  -- a delivery; `proposed` when it enters the log
  | deliver (proposed : Bool)
  -- the delivery was refused before it was proposed
  | refuse (r : Refusal) (c : Choice)
  -- a transport error or a timeout: the client does not wait for this delivery any longer
  | lose
  -- leadership changed with the proposal in flight
  | ambiguous
  -- the context ends while the client waits
  | abandon
  -- the context ends, or every replica was tried, between two deliveries
  | giveUp (c : Choice)
  | receive (c : Choice)
  -- the first delivery of the log is evaluated
  | evaluate
  -- everything else that happens to the range
  | foreign (record : Option Transaction) (data : Key → KeyHistory)

def State.proposed (s : State) : Bool := s.log.any fun p => p.1 == s.sent

section Machine
variable (writes : List (Key × Option Bytes))

def evaluate (s : State) (n : Nat) (txn : Transaction) (log : List (Nat × Transaction)) : State :=
  let waiting := s.phase == .awaiting && n == s.sent
  match evalOnePhase s.record s.data ⟨txn, writes⟩ with
  | .error err => { s with log := log, answer := if waiting then some (.error err) else s.answer }
  | .ok (data, resp) =>
    { s with
      log := log
      data := data
      applied := s.applied ++ [⟨txn.writeTimestamp, s.data, data⟩]
      answer := if waiting then some (.ok resp) else s.answer }

def step (s : State) : Action → Option State
  | .deliver proposed =>
    if s.phase = .ready then
      if !s.deadline.isEmpty && !s.txn.writeTimestamp.less s.deadline then some
        (s.finish .retryable)
      else
        let n := s.sent + 1
        some { s with
          phase := .awaiting
          sent := n
          answer := none
          log := if proposed then s.log ++ [(n, s.txn)] else s.log }
    else none
  | .refuse r c =>
    if s.phase = .awaiting ∧ s.answer.isNone ∧ s.proposed = false then
      if r.loops then some { s with phase := .ready, lastErr := some r } else some (returned s c r)
    else none
  | .lose =>
    if s.phase = .awaiting then some
      { s with phase := .ready, answer := none, lastErr := some .unreachable }
    else none
  | .ambiguous => if s.phase = .awaiting then some (s.finish .failed) else none
  | .abandon => if s.phase = .awaiting then some (s.finish .failed) else none
  | .giveUp c =>
    if s.phase = .ready then
      match s.lastErr with
      | none => some (s.finish .failed)
      | some r => some (returned s c r)
    else none
  | .receive c =>
    if s.phase = .awaiting then
      match s.answer with
      | none => none
      | some (.ok resp) => some (s.finish (.committed resp.commitTimestamp))
      | some (.error err) => some (handle s c err)
    else none
  | .evaluate =>
    match s.log with
    | [] => none
    | (n, txn) :: log => some (evaluate writes s n txn log)
  | .foreign record data => some { s with record := record, data := data }

end Machine

def State.start (txn : Transaction) (deadline : Timestamp) (record : Option Transaction)
    (data : Key → KeyHistory) : State where
  record := record
  data := data
  txn := txn
  deadline := deadline
  phase := .ready
  sent := 0
  log := []
  answer := none
  lastErr := none
  waited := 0
  refreshes := 0
  applied := []

/-- The client waits for a delivery that was proposed until it is evaluated, and for
the answer of one that took effect. -/
def waitsForAnswer (s : State) : Action → Bool
  | .lose => !s.proposed && (match s.answer with
    | some (.ok _) => false
    | _ => true)
  | _ => true

/-- Every write of the batch became a committed version, on keys that had none so new. -/
def Application.Effect (writes : List (Key × Option Bytes)) (a : Application) : Prop :=
  (writes.map Prod.fst).Nodup ∧ (∀ w ∈ writes, (a.before w.1).Below a.ts) ∧
    a.after = committed a.ts writes a.before

/-- What an outcome of `Commit` says about the evaluations that took effect. -/
def Outcome.Honest (writes : List (Key × Option Bytes)) (applied : List Application) :
    Outcome → Prop
  | .committed ts => ∃ a, applied = [a] ∧ a.ts = ts ∧ a.Effect writes
  | .retryable => applied = []
  | .classic => applied = []
  | .failed => True

def AtMostOnce (writes : List (Key × Option Bytes)) (s : State) : Prop :=
  s.applied.length ≤ 1 ∧ ∀ o, s.phase = .done o → o.Honest writes s.applied

def Quiet (s : State) : Prop := s.log = [] ∧ s.applied = []

def Once (writes : List (Key × Option Bytes)) (s : State) (ts : Timestamp) : Prop :=
  s.log = [] ∧ ∃ a, s.applied = [a] ∧ a.ts = ts ∧ a.Effect writes

/-- What the client knows is what happened to the only delivery that was proposed. -/
def Fits (writes : List (Key × Option Bytes)) (s : State) :
    Phase → Option (Except KVError EndTxnResponse) → Prop
  | .ready, _ => Quiet s
  | .awaiting, none => s.applied = [] ∧ (s.log = [] ∨ ∃ txn, s.log = [(s.sent, txn)])
  | .awaiting, some (.ok resp) => Once writes s resp.commitTimestamp
  | .awaiting, some (.error _) => Quiet s
  | .done (.committed ts), _ => Once writes s ts
  | .done .retryable, _ => Quiet s
  | .done .classic, _ => Quiet s
  | .done .failed, _ => s.log.length + s.applied.length ≤ 1

def Inv (writes : List (Key × Option Bytes)) (s : State) : Prop := Fits writes s s.phase s.answer

section Invariant
variable {writes : List (Key × Option Bytes)} {s s' : State}

theorem Inv.atMostOnce (h : Inv writes s) : AtMostOnce writes s := by
  unfold Inv at h
  unfold AtMostOnce
  have hquiet : Quiet s → s.applied.length ≤ 1 := by
    rintro ⟨-, happlied⟩
    rw [happlied]
    exact Nat.zero_le 1
  have honce : ∀ ts, Once writes s ts → s.applied.length ≤ 1 := by
    rintro ts ⟨-, a, happlied, -⟩
    rw [happlied]
    exact le_refl 1
  cases hp : s.phase with
  | ready =>
    rw [hp] at h
    exact ⟨hquiet h, fun o ho => by cases ho⟩
  | awaiting =>
    rw [hp] at h
    refine ⟨?_, fun o ho => by cases ho⟩
    cases ha : s.answer with
    | none =>
      rw [ha] at h
      rw [h.1]
      exact Nat.zero_le 1
    | some res =>
      rw [ha] at h
      cases res with
      | error err => exact hquiet h
      | ok resp => exact honce _ h
  | done o =>
    rw [hp] at h
    cases o with
    | committed ts =>
      refine ⟨honce _ h, ?_⟩
      intro o ho
      cases ho
      exact h.2
    | retryable | classic =>
      refine ⟨hquiet h, ?_⟩
      intro o ho
      cases ho
      exact h.2
    | failed =>
      refine ⟨?_, ?_⟩
      · have h : s.log.length + s.applied.length ≤ 1 := h
        omega
      · intro o ho
        cases ho
        trivial

structure Resumes (s s' : State) : Prop where
  log : s'.log = s.log
  applied : s'.applied = s.applied
  phase : s'.phase = .ready ∨ s'.phase = .done .retryable ∨ s'.phase = .done .classic ∨
    s'.phase = .done .failed

theorem Resumes.inv (h : Resumes s s') (hquiet : Quiet s) : Inv writes s' := by
  have hquiet' : Quiet s' := ⟨h.log.trans hquiet.1, h.applied.trans hquiet.2⟩
  unfold Inv
  rcases h.phase with hp | hp | hp | hp
  · rw [hp]
    exact hquiet'
  · rw [hp]
    exact hquiet'
  · rw [hp]
    exact hquiet'
  · rw [hp]
    change s'.log.length + s'.applied.length ≤ 1
    rw [hquiet'.1, hquiet'.2]
    exact Nat.zero_le 1

section
variable (s)

theorem resumes_retryable : Resumes s (s.finish .retryable) := ⟨rfl, rfl, .inr (.inl rfl)⟩

theorem resumes_classic : Resumes s (s.finish .classic) := ⟨rfl, rfl, .inr (.inr (.inl rfl))⟩

theorem resumes_failed : Resumes s (s.finish .failed) := ⟨rfl, rfl, .inr (.inr (.inr rfl))⟩

theorem refreshOrRetry_resumes (newTS : Timestamp) (refreshed : Bool) :
    Resumes s (refreshOrRetry s newTS refreshed) := by
  unfold refreshOrRetry
  split
  · split
    · exact ⟨rfl, rfl, .inl rfl⟩
    · exact resumes_retryable s
  · exact resumes_retryable s

theorem handle_resumes (c : Choice) (err : KVError) : Resumes s (handle s c err) := by
  unfold handle
  split
  · split
    · exact resumes_failed s
    · exact ⟨rfl, rfl, .inl rfl⟩
    · exact resumes_retryable s
    split
    · exact resumes_retryable s
    · exact ⟨rfl, rfl, .inl rfl⟩
  · exact resumes_retryable s
  · split
    · exact refreshOrRetry_resumes s _ _
    · exact resumes_failed s

theorem returned_resumes (c : Choice) (r : Refusal) : Resumes s (returned s c r) := by
  cases r with
  | unreachable | notLeader => exact resumes_failed s
  | storageOverloaded => exact refreshOrRetry_resumes s _ _
  | rangeNotFound | rangeKeyMismatch => exact resumes_classic s
  | kv err => exact handle_resumes s c err

end

theorem evaluate_cases (writes : List (Key × Option Bytes)) (s : State) (n : Nat)
    (txn : Transaction) (log : List (Nat × Transaction)) :
    (∃ err, evaluate writes s n txn log =
      { s with
        log := log
        answer :=
          if s.phase == .awaiting && n == s.sent then some (.error err) else s.answer }) ∨
    ∃ a : Application, a.ts = txn.writeTimestamp ∧ a.Effect writes ∧
      evaluate writes s n txn log = { s with
        log := log
        data := a.after
        applied := s.applied ++ [a]
        answer :=
          if s.phase == .awaiting && n == s.sent then some (.ok ⟨txn.writeTimestamp, true⟩)
          else s.answer } := by
  unfold evaluate
  rcases evalOnePhase_cases s.record s.data ⟨txn, writes⟩ with ⟨⟨hadm, hsingle⟩, heval⟩
    | ⟨-, err, heval⟩
  · right
    refine ⟨⟨txn.writeTimestamp, s.data, committed txn.writeTimestamp writes s.data⟩, rfl, ?_, ?_⟩
    · refine ⟨hsingle.nodup, ?_, rfl⟩
      intro w hw
      have hwritable := hadm.writable w hw
      unfold KeyHistory.Writable at hwritable
      rw [hsingle.bare w hw] at hwritable
      exact hwritable
    · rw [heval]
  · left
    refine ⟨err, ?_⟩
    rw [heval]

section
variable (h : Inv writes s)
include h

theorem inv_evaluate {n : Nat} {txn : Transaction} {log : List (Nat × Transaction)}
    (hlog : s.log = (n, txn) :: log) : Inv writes (evaluate writes s n txn log) := by
  have hne : s.log ≠ [] := by
    rw [hlog]
    exact List.cons_ne_nil _ _
  have hbusy : ¬ Quiet s := fun hquiet => hne hquiet.1
  unfold Inv at h
  cases hp : s.phase with
  | ready =>
    rw [hp] at h
    exact absurd h hbusy
  | awaiting =>
    rw [hp] at h
    cases ha : s.answer with
    | some res =>
      rw [ha] at h
      cases res with
      | error err => exact absurd h hbusy
      | ok resp => exact absurd h.1 hne
    | none =>
      rw [ha] at h
      obtain ⟨happlied, hnil | ⟨txn', hone⟩⟩ := h
      · exact absurd hnil hne
      rw [hlog] at hone
      cases hone
      rcases evaluate_cases writes s s.sent txn [] with ⟨err, heval⟩ | ⟨a, hts, heffect, heval⟩
      · rw [heval, hp]
        simp only [beq_self_eq_true, Bool.and_self, if_true]
        exact ⟨rfl, happlied⟩
      · rw [heval, hp]
        simp only [beq_self_eq_true, Bool.and_self, if_true]
        refine ⟨rfl, a, ?_, hts, heffect⟩
        rw [happlied]
        rfl
  | done o =>
    rw [hp] at h
    cases o with
    | committed ts => exact absurd h.1 hne
    | retryable | classic => exact absurd h hbusy
    | failed =>
      have h : s.log.length + s.applied.length ≤ 1 := h
      rw [hlog, List.length_cons] at h
      rcases evaluate_cases writes s n txn log with ⟨err, heval⟩ | ⟨a, -, -, heval⟩
      · rw [heval]
        rw [hp]
        change log.length + s.applied.length ≤ 1
        omega
      · rw [heval]
        rw [hp]
        change log.length + (s.applied ++ [a]).length ≤ 1
        rw [List.length_append, List.length_singleton]
        omega

theorem Inv.quiet_of_ready (hp : s.phase = .ready) : Quiet s := by
  unfold Inv at h
  rw [hp] at h
  exact h

theorem Inv.quiet_of_unproposed (hp : s.phase = .awaiting) (hprop : s.proposed = false)
    (hanswer : ∀ resp, s.answer ≠ some (.ok resp)) : Quiet s := by
  unfold Inv at h
  rw [hp] at h
  cases ha : s.answer with
  | none =>
    rw [ha] at h
    obtain ⟨happlied, hnil | ⟨txn, hone⟩⟩ := h
    · exact ⟨hnil, happlied⟩
    unfold State.proposed at hprop
    rw [hone] at hprop
    simp at hprop
  | some res =>
    rw [ha] at h
    cases res with
    | error err => exact h
    | ok resp => exact absurd ha (hanswer resp)

theorem inv_finish_failed (hp : s.phase = .awaiting) : Inv writes (s.finish .failed) := by
  change s.log.length + s.applied.length ≤ 1
  unfold Inv at h
  rw [hp] at h
  have hquiet : Quiet s → s.log.length + s.applied.length ≤ 1 := by
    rintro ⟨hlog, happlied⟩
    rw [hlog, happlied]
    exact Nat.zero_le 1
  cases ha : s.answer with
  | none =>
    rw [ha] at h
    obtain ⟨happlied, hnil | ⟨txn, hone⟩⟩ := h
    · exact hquiet ⟨hnil, happlied⟩
    · rw [hone, happlied]
      exact le_refl 1
  | some res =>
    rw [ha] at h
    cases res with
    | error err => exact hquiet h
    | ok resp =>
      obtain ⟨hlog, a, happlied, -⟩ := h
      rw [hlog, happlied]
      exact le_refl 1

theorem inv_step {a : Action} (hguard : waitsForAnswer s a = true)
    (hstep : step writes s a = some s') : Inv writes s' := by
  cases a with
  | deliver proposed =>
    dsimp only [step] at hstep
    split at hstep
    · rename_i hp
      obtain ⟨hlog, happlied⟩ := h.quiet_of_ready hp
      split at hstep
      · cases hstep
        exact (resumes_retryable s).inv ⟨hlog, happlied⟩
      cases hstep
      refine ⟨happlied, ?_⟩
      cases proposed with
      | true => exact .inr ⟨s.txn, by rw [hlog]; rfl⟩
      | false => exact .inl hlog
    · cases hstep
  | refuse r c =>
    dsimp only [step] at hstep
    split at hstep
    · rename_i hcond
      obtain ⟨hp, hnone, hprop⟩ := hcond
      have hquiet := h.quiet_of_unproposed hp hprop fun resp hresp => by
        simp [hresp] at hnone
      split at hstep
      · cases hstep
        exact hquiet
      · cases hstep
        exact (returned_resumes s c r).inv hquiet
    · cases hstep
  | lose =>
    dsimp only [step] at hstep
    split_ifs at hstep with hp
    cases hstep
    obtain ⟨hprop, hanswer⟩ := and_eq_true_iff.mp hguard
    refine h.quiet_of_unproposed hp ((not_eq_true' _).mp hprop) ?_
    intro resp hresp
    simp [hresp] at hanswer
  | ambiguous | abandon =>
    dsimp only [step] at hstep
    split_ifs at hstep with hp
    cases hstep
    exact inv_finish_failed h hp
  | giveUp c =>
    dsimp only [step] at hstep
    split_ifs at hstep with hp
    have hquiet := h.quiet_of_ready hp
    split at hstep
    · cases hstep
      exact (resumes_failed s).inv hquiet
    · cases hstep
      exact (returned_resumes s c _).inv hquiet
  | receive c =>
    dsimp only [step] at hstep
    split_ifs at hstep with hp
    unfold Inv at h
    rw [hp] at h
    split at hstep
    · cases hstep
    · rename_i resp ha
      cases hstep
      rw [ha] at h
      exact h
    · rename_i err ha
      cases hstep
      rw [ha] at h
      exact (handle_resumes s c err).inv h
  | evaluate =>
    dsimp only [step] at hstep
    split at hstep
    · cases hstep
    rename_i n txn log hlog
    cases hstep
    exact inv_evaluate h hlog
  | foreign record data =>
    cases hstep
    exact h

end

/-- However often the batch is delivered: as long as the client waits for the answers
of the deliveries that are in the log or took effect, a commit that returns a
retryable error has left no trace and one that succeeds took effect once. -/
theorem one_phase_at_most_once (writes : List (Key × Option Bytes)) {txn : Transaction}
    {deadline : Timestamp} {record : Option Transaction} {data : Key → KeyHistory}
    {actions : List Action} {s : State}
    (hguard : Runs.Guarded (step writes) (fun s a => waitsForAnswer s a = true)
      (State.start txn deadline record data) actions)
    (hrun : Runs.run (step writes) (State.start txn deadline record data) actions = some s) :
    AtMostOnce writes s := by
  have hstart : Inv writes (State.start txn deadline record data) := ⟨rfl, rfl⟩
  exact (Runs.invariant_of_run (fun _ _ _ h hg hs => inv_step h hg hs) hstart hguard
    hrun).atMostOnce

end Invariant

section Examples

private def client : Transaction :=
  { id := 1, key := [7], epoch := 0
    writeTimestamp := ⟨10, 0⟩, minTimestamp := ⟨10, 0⟩, priority := 0
    sequence := 1, historyFloor := -1, readTimestamp := ⟨10, 0⟩, status := .pending,
    lastHeartbeat := ⊥
    intentKeys := [], waitingFor := 0, waitingForKey := [], inFlightKeys := [] }

private def fresh : State := State.start client ⊥ none fun _ => KeyHistory.empty

theorem one_phase_at_most_once_redelivered :
    ∃ s, Runs.run (step [([7], some [1])]) fresh
      [.deliver false, .lose, .deliver true, .evaluate, .receive {}] =
        some s ∧ s.phase = .done (.committed ⟨10, 0⟩) ∧ s.applied.length = 1 ∧
        AtMostOnce [([7], some [1])] s := by
  refine Runs.exists_of_run (fun s => s.phase = .done (.committed ⟨10, 0⟩) ∧ s.applied.length = 1)
    (by decide) ?_
  exact fun s hrun hs => ⟨hs.1, hs.2, one_phase_at_most_once [([7], some [1])] (by decide) hrun⟩

/-- A reply is lost after the batch took effect. The second delivery is refused as too
old; the client moves its timestamp and commits once more, or it returns a retryable
error. -/
theorem lost_reply_commits_twice : (∃ s, Runs.run (step [([7], some [1])]) fresh
        [.deliver true, .evaluate, .lose, .deliver true, .evaluate,
          .receive { now := ⟨12, 0⟩, refreshed := true }, .deliver true, .evaluate, .receive {}] =
    some s ∧
      s.phase = .done (.committed ⟨12, 0⟩) ∧ s.applied.map Application.ts = [⟨10, 0⟩, ⟨12, 0⟩]) ∧
    ∃ s, Runs.run (step [([7], some [1])]) fresh
        [.deliver true, .evaluate, .lose, .deliver true, .evaluate, .receive { now := ⟨12, 0⟩ }] =
          some s ∧
      s.phase = .done .retryable ∧ s.applied.map Application.ts = [⟨10, 0⟩] := by
  decide

end Examples

end Datax.OnePhaseSend
