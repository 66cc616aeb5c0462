import Datax.Kvserver.TxnVerdict

/-!
# A verdict is final

An abort, reported or stored, and a stored commit each set a latch: the record
shows the verdict, or it was collected and the range's threshold has passed the
transaction's birth. Operations that judge an absent record by that birth keep
the latch and never contradict it.
-/

namespace Datax

section Latches
variable {m : Timestamp} {s : RecordState} {op : RecordOp}

theorem settled_of_abortedAt (hop : JudgedByBirth m s op) (h : AbortedAt s op) :
    Settled m (fun r => r.status = .aborted) (stepRecord s op) := by
  rcases h with hleft | ⟨a, ha, hrep⟩
  · exact .inl hleft
  obtain ⟨op, rfl⟩ := answer_gc ha
  obtain ⟨rec', heval⟩ := mem_answer_txn.mp ha
  have hafter : recordAfter s.gcThreshold s.record op = rec' := by
    simp only [recordAfter, heval]
  rcases reportsAborted_cases heval hrep with hab | ⟨hnone, hnone', req, rfl⟩
  · left
    simpa only [stepRecord, hafter] using hab
  · right
    exact ⟨hafter.trans hnone', hop hnone⟩

theorem Settled.holds {P : Transaction → Prop} {r : Transaction} (h : Settled m P s)
    (hr : r ∈ s.record) : P r := by
  rcases h with ⟨r', hr', hp⟩ | ⟨hnone, _⟩
  · exact Option.some.inj (hr'.symm.trans hr) ▸ hp
  · simp [hnone] at hr

theorem not_committedAt_of_settled (hop : JudgedByBirth m s op)
    (h : Settled m (fun r => r.status = .aborted) s) (hnext :
      Settled m (fun r => r.status = .aborted) (stepRecord s op)) : ¬ CommittedAt s op := by
  rintro (⟨c, r, hr, hcom, _⟩ | ⟨a, ha, hrep⟩)
  · simp [hnext.holds hr] at hcom
  · obtain ⟨op, rfl⟩ := answer_gc ha
    obtain ⟨rec', heval⟩ := mem_answer_txn.mp ha
    rcases reportsCommit_cases heval hrep with ⟨r, hr, hne⟩ | ⟨hnone, hreq⟩
    · exact hne (h.holds hr)
    · rcases h with ⟨r', hr', _⟩ | ⟨_, hpre⟩
      · rw [hnone] at hr'
        cases hr'
      · rcases hreq with ⟨txn, req, rfl⟩ | ⟨data, ba, rfl⟩
        · exact hop.2 hnone hpre
        · exact hop.2.1 hnone hpre

theorem not_contradictsCommit_of_settled {c : Timestamp} (hop : JudgedByBirth m s op)
    (h : Settled m (fun r => r.status = .committed ∧ r.writeTimestamp = c) s)
    (hnext : Settled m (fun r => r.status = .committed ∧ r.writeTimestamp = c) (stepRecord s op)) :
    ¬ ContradictsCommit c s op := by
  rintro (⟨r, hr, hab⟩ | ⟨a, ha, c', hc', hne⟩)
  · simp [(hnext.holds hr).1] at hab
  · obtain ⟨op, rfl⟩ := answer_gc ha
    obtain ⟨rec', heval⟩ := mem_answer_txn.mp ha
    rcases h with ⟨r, hr, hcom, hts⟩ | ⟨hnone, hpre⟩
    · rcases commitTimestamp_committed hr hcom heval hc' with hceq | ⟨data, ba, rfl, hceq⟩
      · exact hne (hceq.trans hts)
      · have hsame := hop.2.2 r hr hcom
        exact hne (hceq.trans (hsame.symm.trans hts))
    · have hrep : a.reportsCommit := by
        cases a with
        | created | heartbeat status | recovered status => cases hc'
        | ended commit resp =>
          by_contra hcom
          simp [TxnAnswer.commitTimestamp, show ¬ commit = true from hcom] at hc'
        | pushed resp =>
          by_contra hcom
          simp [TxnAnswer.commitTimestamp, show ¬ resp.status = .committed from hcom] at hc'
        | onePhase resp => exact trivial
      rcases reportsCommit_cases heval hrep with ⟨r, hr, _⟩ | ⟨_, hreq⟩
      · simp [hnone] at hr
      rcases hreq with ⟨txn, req, rfl⟩ | ⟨data, ba, rfl⟩
      · exact hop.2 hnone hpre
      · exact hop.2.1 hnone hpre

end Latches

/-- Where every operation judges an absent record by the transaction's birth, no
operation contradicts the verdict of an earlier one. -/
theorem verdict_final {m : Timestamp} (gcThreshold : Timestamp) (ops : List RecordOp)
    (h : Runs.Along stepRecord (JudgedByBirth m) ⟨gcThreshold, none, []⟩ ops) :
    VerdictFinal ⟨gcThreshold, none, []⟩ ops := by
  have hborn : BornAt m ⟨gcThreshold, none, []⟩ := ⟨by simp, by simp⟩
  have habort := Runs.pairwise_of_latch (β := Unit) (f := stepRecord) (G := BornAt m)
    (C := JudgedByBirth m) (A := fun _ => AbortedAt) (B := fun _ => CommittedAt)
    (I := fun _ => Settled m fun r => r.status = .aborted)
    (fun _ _ hb hop => bornAt_step hb hop)
    (fun _ _ _ hb hop hs => settled_step (fun _ hr => .inr hr) hb hop hs)
    (fun _ _ _ hb hop hs =>
      not_committedAt_of_settled hop hs (settled_step (fun _ hr => .inr hr) hb hop hs))
    (fun _ _ _ _ hop ha => settled_of_abortedAt hop ha) hborn h
  have hcommit := Runs.pairwise_of_latch (f := stepRecord) (G := BornAt m)
    (C := JudgedByBirth m) (A := LeftCommitted) (B := ContradictsCommit)
    (I := fun c => Settled m fun r => r.status = .committed ∧ r.writeTimestamp = c)
    (fun _ _ hb hop => bornAt_step hb hop)
    (fun _ _ _ hb hop hs => settled_step (fun _ hr => .inl hr.1) hb hop hs)
    (fun _ _ _ hb hop hs =>
      not_contradictsCommit_of_settled hop hs (settled_step (fun _ hr => .inl hr.1) hb hop hs))
    (fun _ _ _ _ _ ha => .inl ha) hborn h
  refine (habort.and hcommit).imp ?_
  intro p q hpq
  exact ⟨hpq.1 (), hpq.2⟩

theorem verdict_final_collected : VerdictFinal ⟨⊥, none, []⟩
      [.txn (.create sampleTxn), .txn (.endTxn sampleTxn { commit := true }),
       .enumerate ⟨9, 0⟩ [] true, .collect ⟨9, 0⟩,
       .txn (.push ⟨none, sampleTxn.toTxnMeta, true, ⟨10, 0⟩, false⟩),
         .txn (.create sampleTxn)] := by
  refine verdict_final (m := ⟨1, 0⟩) ⊥ _ ?_
  simp only [Runs.along_cons, Runs.along_nil, and_true]
  have hown : OwnMeta ⟨1, 0⟩ sampleTxn.toTxnMeta := ⟨rfl, le_rfl⟩
  refine ⟨hown, ⟨hown, ?_⟩, trivial, trivial, ⟨hown, ?_⟩, hown⟩
  · intro hnone
    cases hnone
  · intro _ hexpired
    cases hexpired

/-- The coordinator aborts, the aborted record is collected, and a commit request
of the same transaction that was delayed until then finds no record and commits. -/
theorem collected_abort_commits : ¬ VerdictFinal ⟨⊥, none, []⟩
      [.txn (.endTxn sampleTxn { commit := false }), .enumerate ⟨9, 0⟩ [] true, .collect ⟨9, 0⟩,
       .txn (.endTxn sampleTxn { commit := true })] := by
  intro h
  have hpair := List.pairwise_iff_getElem.mp h 0 3 (by decide) (by decide) (by decide)
  refine hpair.1 (.inl ⟨_, rfl, rfl⟩) (.inl ⟨_, _, rfl, rfl, rfl⟩)

end Datax
