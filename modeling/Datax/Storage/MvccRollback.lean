import Datax.Storage.MvccWrite

/-!
# Rolling an intent back

An intent keeps the values it superseded, each with its sequence. A rollback puts the newest one at
or below the savepoint's sequence back, or removes the intent of a key first written later.
`stateAt` says what the transaction had written to the key by a sequence; rewrites and rollbacks
keep it for the sequences a live savepoint can ask for.
-/

namespace Datax

open List

open Shared (Chain)

/-- The newest entry at or below `seq`, after the entries that precede it. -/
def restorePoint (seq : Int) : List IntentValue → Option (List IntentValue × IntentValue)
  | [] => none
  | e :: es =>
    match restorePoint seq es with
    | some (before, ent) => some (e :: before, ent)
    | none => if e.sequence ≤ seq then some ([], e) else none

def mvccRollbackIntent (h : KeyHistory) (txnID : UUID) (seq : Int) : KeyHistory :=
  match h.intent with
  | none => h
  | some intent =>
    if intent.txn.id ≠ txnID ∨ intent.txn.sequence ≤ seq then h
    else
      match restorePoint seq intent.history with
      | none => { intent := none, versions := h.versions.delete intent.timestamp }
      | some (before, ent) =>
        { intent := some { intent with
            txn := { intent.txn with sequence := ent.sequence }
            history := before }
          versions := (h.versions.delete intent.timestamp).put intent.timestamp ent.value }

theorem mvccRollbackIntent_intent {h : KeyHistory} {txnID : UUID} {seq : Int}
    {intent : MVCCMetadata} (hr : (mvccRollbackIntent h txnID seq).intent = some intent) :
    ∃ old, h.intent = some old ∧ old.txn.id = intent.txn.id := by
  unfold mvccRollbackIntent at hr
  split at hr
  · rename_i hnone
    simp [hnone] at hr
  rename_i old hold
  refine ⟨old, hold, ?_⟩
  split at hr
  · rw [hold] at hr
    cases hr
    rfl
  · split at hr <;> cases hr
    rfl

variable {before : List IntentValue} {ent : IntentValue}

section History
variable {seq : Int} {l l' : List IntentValue}

def restored (seq : Int) (l : List IntentValue) : Option (Option Bytes) :=
  (restorePoint seq l).map fun p => p.2.value

theorem restorePoint_append (seq : Int) (l l' : List IntentValue) : restorePoint seq (l ++ l') =
      match restorePoint seq l' with
      | some (before, ent) => some (l ++ before, ent)
      | none => restorePoint seq l := by
  induction l with
  | nil =>
    rw [nil_append]
    cases restorePoint seq l' with
    | none | some p => rfl
  | cons e es ih =>
    rw [cons_append, restorePoint, ih]
    cases restorePoint seq l' with
    | none | some p => rfl

theorem restored_concat (seq : Int) (l : List IntentValue) (e : IntentValue) :
    restored seq (l ++ [e]) = if e.sequence ≤ seq then some e.value else restored seq l := by
  unfold restored
  rw [restorePoint_append]
  by_cases he : e.sequence ≤ seq
  · simp [restorePoint, he]
  · simp [restorePoint, he]

theorem restorePoint_isSome {e : IntentValue} (he : e ∈ l) (hle : e.sequence ≤ seq) :
    (restorePoint seq l).isSome = true := by
  induction l with
  | nil => cases he
  | cons d es ih =>
    unfold restorePoint
    rcases mem_cons.mp he with rfl | he
    · cases restorePoint seq es with
      | none => simp [hle]
      | some p => rfl
    · obtain ⟨p, hp⟩ := Option.isSome_iff_exists.mp (ih he)
      rw [hp]
      rfl

theorem restorePoint_eq_none_iff : restorePoint seq l = none ↔ ∀ e ∈ l, seq < e.sequence := by
  constructor
  · intro h e he
    by_contra hle
    have hsome := restorePoint_isSome he (not_lt.mp hle)
    simp [h] at hsome
  · intro h
    induction l with
    | nil => rfl
    | cons d es ih =>
      have hd : ¬ d.sequence ≤ seq := not_le.mpr (h d mem_cons_self)
      have hes := ih fun e he => h e (mem_cons_of_mem d he)
      simp [restorePoint, hes, hd]

theorem restorePoint_eq_some (h : restorePoint seq l = some (before, ent)) :
    ∃ after, l = before ++ ent :: after ∧ ent.sequence ≤ seq ∧ ∀ e ∈ after, seq < e.sequence := by
  induction l generalizing before with
  | nil => cases h
  | cons d es ih =>
    unfold restorePoint at h
    cases hr : restorePoint seq es with
    | some p =>
      rw [hr] at h
      cases h
      obtain ⟨after, rfl, hent, hafter⟩ := ih hr
      exact ⟨after, rfl, hent, hafter⟩
    | none =>
      rw [hr] at h
      dsimp only at h
      split_ifs at h with hd
      cases h
      exact ⟨es, rfl, hd, restorePoint_eq_none_iff.mp hr⟩

theorem restored_before {seq' : Int} (hle : seq' ≤ seq)
    (h : restorePoint seq l = some (before, ent)) :
    restored seq' l = if ent.sequence ≤ seq' then some ent.value else restored seq' before := by
  obtain ⟨after, rfl, _, hafter⟩ := restorePoint_eq_some h
  have hnone : restorePoint seq' after = none :=
    restorePoint_eq_none_iff.mpr fun e he => hle.trans_lt (hafter e he)
  rw [← restored_concat, restored, restored, append_cons, restorePoint_append, hnone]

theorem restored_drop {n : Nat} (h : n = 0 ∨ ∃ e ∈ l.drop n, e.sequence ≤ seq) :
    restored seq (l.drop n) = restored seq l := by
  rcases h with rfl | ⟨e, he, hle⟩
  · rw [drop_zero]
  obtain ⟨p, hp⟩ := Option.isSome_iff_exists.mp (restorePoint_isSome he hle)
  have happ := restorePoint_append seq (l.take n) (l.drop n)
  rw [take_append_drop, hp] at happ
  simp only [restored, happ, hp, Option.map_some]

theorem lastAtOrBelow_spec (seq : Int) (l : List IntentValue) (i first : Nat) :
    boundedHistory.lastAtOrBelow seq l i first = first ∨
      ∃ j, boundedHistory.lastAtOrBelow seq l i first = i + j ∧
        ∃ e ∈ l.drop j, e.sequence ≤ seq := by
  induction l generalizing i first with
  | nil => exact .inl rfl
  | cons d es ih =>
    unfold boundedHistory.lastAtOrBelow
    rcases ih (i + 1) (if d.sequence ≤ seq then i else first) with h | ⟨j, hj, he⟩
    · by_cases hd : d.sequence ≤ seq
      · right
        refine ⟨0, ?_, d, by simp, hd⟩
        rw [h, if_pos hd, Nat.add_zero]
      · left
        rw [h, if_neg hd]
    · right
      refine ⟨j + 1, ?_, ?_⟩
      · omega
      · simpa using he

theorem restored_cut {floor : Int} (hseq : floor - 1 ≤ seq) (l : List IntentValue) :
    restored seq
      (if floor = 0 then l else l.drop (boundedHistory.lastAtOrBelow (floor - 1) l 0 0)) =
      restored seq l := by
  split
  · rfl
  apply restored_drop
  rcases lastAtOrBelow_spec (floor - 1) l 0 0 with h | ⟨j, hj, e, he, hle⟩
  · exact .inl h
  right
  rw [hj, Nat.zero_add]
  exact ⟨e, he, hle.trans hseq⟩

theorem restored_boundedHistory {add : IntentValue} {floor : Int} (hfloor : 0 ≤ floor)
    (hseq : floor - 1 ≤ seq) :
    restored seq (boundedHistory l add floor) = if add.sequence ≤ seq then some add.value
      else restored seq l := by
  unfold boundedHistory
  rw [if_neg (not_lt.mpr hfloor)]
  cases hl : l.getLast? with
  | none =>
    rw [restored_cut hseq, getLast?_eq_none_iff.mp hl]
    exact restored_concat seq [] add
  | some e =>
    dsimp only
    rw [restored_cut hseq]
    split
    · rename_i heq
      have hsplit : l = l.dropLast ++ [e] := (dropLast_append_getLast? e hl).symm
      rw [restored_concat]
      split
      · rfl
      rename_i hgt
      conv_rhs => rw [hsplit]
      rw [restored_concat, heq, if_neg hgt]
    · exact restored_concat seq l add

end History

def ownValue (id : UUID) (h : KeyHistory) : Option (Option Bytes) :=
  match h.intent with
  | none => none
  | some i => if i.txn.id = id then h.versions.get i.timestamp else none

def stateAt (id : UUID) (seq : Int) (h : KeyHistory) : Option (Option Bytes) :=
  match h.intent with
  | none => none
  | some i =>
    if i.txn.id = id then
      if i.txn.sequence ≤ seq then h.versions.get i.timestamp else restored seq i.history
    else none

inductive Overlaid (txn : TxnMeta) (base : KeyHistory) : KeyHistory → Prop where
  | bare (hbase : ∀ i ∈ base.intent, i.txn.id ≠ txn.id) : Overlaid txn base base
  | laid (i : MVCCMetadata) (v : Option Bytes) (hbase : base.intent = none)
    (hid : i.txn.id = txn.id)
      (hepoch : i.txn.epoch = txn.epoch) (hseq : i.txn.sequence ≤ txn.sequence)
      (hbelow : base.Below i.timestamp) :
      Overlaid txn base ⟨some i, base.versions.put i.timestamp v⟩

theorem stateAt_rollback (h : KeyHistory) (id : UUID) (seq s : Int) :
    stateAt id s (mvccRollbackIntent h id seq) = stateAt id (min s seq) h := by
  unfold mvccRollbackIntent
  cases hi : h.intent with
  | none => simp [stateAt, hi]
  | some i =>
    by_cases hid : i.txn.id = id
    · by_cases hle : i.txn.sequence ≤ seq
      · by_cases hs : i.txn.sequence ≤ s
        · simp [stateAt, hi, hle, hs]
        · have hmin : min s seq = s := by omega
          simp [stateAt, hi, hle, hmin]
      · cases hr : restorePoint seq i.history with
        | none =>
          have hnone : restorePoint (min s seq) i.history = none :=
            restorePoint_eq_none_iff.mpr fun e he =>
              (min_le_right s seq).trans_lt (restorePoint_eq_none_iff.mp hr e he)
          simp [stateAt, hi, hid, hle, hr, restored, hnone]
        | some p =>
          obtain ⟨_, _, hent, _⟩ := restorePoint_eq_some hr
          have hbefore := restored_before (min_le_right s seq) hr
          by_cases hs : p.2.sequence ≤ s
          · simp [stateAt, hi, hid, hle, hr, hbefore, hs, hent, Chain.get_put]
          have hmin : min s seq = s := by omega
          rw [hmin] at hbefore ⊢
          have hgt : ¬ i.txn.sequence ≤ s := by omega
          simp [stateAt, hi, hid, hle, hr, hbefore, hs, hgt]
    · simp [stateAt, hi, hid]

variable {i : MVCCMetadata} {v : Option Bytes}

section Overlay
variable {txn : TxnMeta} {base h : KeyHistory} {key : Key} {seq : Int}

theorem Overlaid.mono {txn' : TxnMeta} (ho : Overlaid txn base h) (hid : txn'.id = txn.id)
    (hepoch : txn'.epoch = txn.epoch) (hseq : txn.sequence ≤ txn'.sequence) :
    Overlaid txn' base h := by
  cases ho with
  | bare hbase =>
    apply Overlaid.bare
    intro i hi
    rw [hid]
    exact hbase i hi
  | laid i v hbase hi he hs hb =>
    exact Overlaid.laid i v hbase (hi.trans hid.symm) (he.trans hepoch.symm) (hs.trans hseq) hb

theorem ownValue_base (hbase : ∀ i ∈ base.intent, i.txn.id ≠ txn.id) :
    ownValue txn.id base = none := by
  unfold ownValue
  cases hi : base.intent with
  | none => rfl
  | some i => simp [hbase i hi]

theorem ownValue_laid (hid : i.txn.id = txn.id) (hbelow : base.Below i.timestamp) :
    ownValue txn.id ⟨some i, base.versions.put i.timestamp v⟩ = some v := by
  simp only [ownValue, hid, if_true]
  exact Chain.get_put_of_newest hbelow v

theorem stateAt_base (hbase : ∀ i ∈ base.intent, i.txn.id ≠ txn.id) :
    stateAt txn.id seq base = none := by
  unfold stateAt
  cases hi : base.intent with
  | none => rfl
  | some i => simp [hbase i hi]

theorem stateAt_laid (hid : i.txn.id = txn.id) (hbelow : base.Below i.timestamp) :
    stateAt txn.id seq ⟨some i, base.versions.put i.timestamp v⟩ =
      if i.txn.sequence ≤ seq then some v else restored seq i.history := by
  simp only [stateAt, hid, if_true]
  rw [Chain.get_put_of_newest hbelow v]

theorem Overlaid.stateAt_now (ho : Overlaid txn base h) (hseq : txn.sequence ≤ seq) :
    stateAt txn.id seq h = ownValue txn.id h := by
  cases ho with
  | bare hbase => rw [stateAt_base hbase, ownValue_base hbase]
  | laid i v _ hid _ hs hb => rw [stateAt_laid hid hb, ownValue_laid hid hb, if_pos (hs.trans hseq)]

theorem Overlaid.write {value : Option Bytes} {h' : KeyHistory} (ho : Overlaid txn base h)
    (hts : ∀ i ∈ h.intent, i.txn.id = txn.id → i.timestamp ≤ txn.writeTimestamp)
    (hw : mvccWrite h key txn.writeTimestamp value (some txn) = .ok h') :
    Overlaid txn base h' ∧ ownValue txn.id h' = some value ∧
      (∀ i ∈ h'.intent, i.timestamp = txn.writeTimestamp) ∧ ∀ seq, 0 ≤ txn.historyFloor →
        txn.historyFloor - 1 ≤ seq → seq < txn.sequence →
        stateAt txn.id seq h' = stateAt txn.id seq h := by
  cases ho with
  | bare hbase =>
    cases hi : base.intent with
    | some i =>
      simp only [mvccWrite, hi, if_neg (hbase i hi)] at hw
      cases hw
    | none =>
      have hbelow : base.Below txn.writeTimestamp := by
        by_contra hno
        obtain ⟨e, he, hle⟩ := tooOld_of_not_below hno
        simp [mvccWrite, hi, he, hle] at hw
      rw [mvccWrite_of_below hi hbelow] at hw
      cases hw
      refine ⟨?_, ?_, ?_, ?_⟩
      · exact Overlaid.laid ⟨txn, txn.writeTimestamp, []⟩ value hi rfl rfl le_rfl hbelow
      · exact ownValue_laid (i := ⟨txn, txn.writeTimestamp, []⟩) rfl hbelow
      · rintro _ ⟨⟩
        rfl
      intro seq _ _ hseq
      rw [stateAt_base hbase]
      refine (stateAt_laid (i := ⟨txn, txn.writeTimestamp, []⟩) rfl hbelow).trans ?_
      rw [if_neg (not_le.mpr hseq)]
      rfl
  | laid i v hbase hid hepoch hs hbelow =>
    have hle := hts i rfl hid
    have hbelow' : base.Below txn.writeTimestamp := fun e he => (hbelow e he).trans_le hle
    simp only [mvccWrite, if_pos hid, if_pos hepoch, layIntent, Chain.get_put_of_newest hbelow v,
      Chain.delete_put_of_newest hbelow v, Except.ok.injEq] at hw
    subst hw
    refine ⟨?_, ?_, ?_, ?_⟩
    · exact Overlaid.laid ⟨txn, txn.writeTimestamp, _⟩ value hbase rfl rfl le_rfl hbelow'
    · exact ownValue_laid (i := ⟨txn, txn.writeTimestamp, _⟩) rfl hbelow'
    · rintro _ ⟨⟩
      rfl
    · intro seq hfloor hkept hseq
      refine (stateAt_laid (i := ⟨txn, txn.writeTimestamp, _⟩) rfl hbelow').trans ?_
      rw [if_neg (not_le.mpr hseq), restored_boundedHistory hfloor hkept, stateAt_laid hid hbelow]

theorem rollback_base (hbase : ∀ i ∈ base.intent, i.txn.id ≠ txn.id) (seq : Int) :
    mvccRollbackIntent base txn.id seq = base := by
  unfold mvccRollbackIntent
  cases hi : base.intent with
  | none => rfl
  | some i => simp [hbase i hi]

section
variable (ho : Overlaid txn base h)
include ho

theorem Overlaid.rollback_of_bare (hown : ownValue txn.id h = none) (seq : Int) :
    mvccRollbackIntent h txn.id seq = h := by
  cases ho with
  | bare hbase => exact rollback_base hbase seq
  | laid i v _ hid _ _ hb =>
    simp [ownValue_laid hid hb] at hown

theorem Overlaid.rollback (seq : Int) : Overlaid txn base (mvccRollbackIntent h txn.id seq) ∧
      ownValue txn.id (mvccRollbackIntent h txn.id seq) = stateAt txn.id seq h ∧
      (∀ i ∈ (mvccRollbackIntent h txn.id seq).intent, ∀ j ∈ h.intent, i.timestamp = j.timestamp) ∧
      ∀ seq' ≤ seq, stateAt txn.id seq' (mvccRollbackIntent h txn.id seq) =
        stateAt txn.id seq' h := by
  have hover : Overlaid txn base (mvccRollbackIntent h txn.id seq) ∧
      ∀ i ∈ (mvccRollbackIntent h txn.id seq).intent, ∀ j ∈ h.intent,
        i.timestamp = j.timestamp := by
    cases ho with
    | bare hbase =>
      rw [rollback_base hbase seq]
      refine ⟨Overlaid.bare hbase, fun i hi j hj => ?_⟩
      rw [Option.mem_unique hi hj]
    | laid i v hbase hid hepoch hs hbelow =>
      by_cases hle : i.txn.sequence ≤ seq
      · have hsame : mvccRollbackIntent ⟨some i, base.versions.put i.timestamp v⟩ txn.id seq =
            ⟨some i, base.versions.put i.timestamp v⟩ := by
          simp [mvccRollbackIntent, hle]
        rw [hsame]
        refine ⟨Overlaid.laid i v hbase hid hepoch hs hbelow, ?_⟩
        rintro _ ⟨⟩ _ ⟨⟩
        rfl
      · have hgo : ¬ (i.txn.id ≠ txn.id ∨ i.txn.sequence ≤ seq) := by simp [hid, hle]
        simp only [mvccRollbackIntent, if_neg hgo, Chain.delete_put_of_newest hbelow v]
        cases hr : restorePoint seq i.history with
        | none =>
          have hb : (⟨none, base.versions⟩ : KeyHistory) = base := by rw [← hbase]
          dsimp only
          rw [hb]
          exact ⟨Overlaid.bare (by simp [hbase]), by simp⟩
        | some p =>
          obtain ⟨_, _, hent, _⟩ := restorePoint_eq_some hr
          have hent' : p.2.sequence ≤ txn.sequence := (hent.trans (not_le.mp hle).le).trans hs
          refine ⟨Overlaid.laid ⟨{ i.txn with sequence := p.2.sequence }, i.timestamp, p.1⟩
            p.2.value hbase
            hid hepoch hent' hbelow, ?_⟩
          rintro _ ⟨⟩ _ ⟨⟩
          rfl
  refine ⟨hover.1, ?_, hover.2, fun seq' hle => ?_⟩
  · rw [← hover.1.stateAt_now (le_max_left _ seq), stateAt_rollback, min_eq_right (le_max_right ..)]
  · rw [stateAt_rollback, min_eq_left hle]

theorem Overlaid.read {t : TxnMeta} (hid : t.id = txn.id) (hepoch : t.epoch = txn.epoch)
    (key : Key) (ts limit : Timestamp) :
    mvccGet h key ts { txn := some t, uncertaintyLimit := limit } =
      match ownValue txn.id h with
      | some v => .ok (v.bind copyBytes)
      | none => mvccGet base key ts { txn := some t, uncertaintyLimit := limit } := by
  cases ho with
  | bare hbase => rw [ownValue_base hbase]
  | laid i v hbase hi he _ hbelow =>
    rw [ownValue_laid hi hbelow]
    have hvis : ∀ u, i.timestamp ≤ u →
        visible (base.versions.put i.timestamp v) u ⊥ = some (i.timestamp, v) := by
      intro u hu
      have hskip : skipped ⊥ i.timestamp = false := by simp [skipped, Timestamp.isEmpty_iff.mpr]
      simp [visible, Chain.newest, Chain.put_entries_of_newest hbelow v, hskip, hu]
    simp only [mvccGet, viewIntent, hi.trans hid.symm, he.trans hepoch.symm, if_true]
    by_cases hempty : i.timestamp.isEmpty = true
    · -- an intent at the zero timestamp is read like a version
      have hbot : ∀ u, i.timestamp ≤ u := by
        intro u
        rw [Timestamp.isEmpty_iff.mp hempty]
        exact bot_le
      have hcertain : uncertainVersion (base.versions.put i.timestamp v) ts ⊥
          { txn := some t, uncertaintyLimit := limit } = none := by
        simp [uncertainVersion, hvis limit (hbot limit), hbot ts]
      rw [if_pos hempty]
      simp [readBeneath, hcertain, hvis ts (hbot ts)]
    · rw [if_neg hempty]
      simp only [readProvisional, hvis _ le_rfl, if_true]

end

/-- The base with one more version, or as it is. -/
def KeyHistory.withVersion (base : KeyHistory) (ts : Timestamp) : Option (Option Bytes) → KeyHistory
  | some v => { base with versions := base.versions.put ts v }
  | none => base

theorem Overlaid.resolve_committed (ho : Overlaid txn base h) (key : Key) {ts : Timestamp}
    (hts : ∀ i ∈ h.intent, i.txn.id = txn.id → i.timestamp ≤ ts) :
    mvccResolveIntent h key txn.id .committed ts = .ok (base.withVersion ts (ownValue txn.id h)) ∧
      (ownValue txn.id h ≠ none → base.Below ts) := by
  cases ho with
  | bare hbase =>
    rw [ownValue_base hbase]
    refine ⟨?_, fun hne => absurd rfl hne⟩
    unfold mvccResolveIntent
    cases hi : base.intent with
    | none => simp [KeyHistory.withVersion]
    | some i => simp [hbase i hi, KeyHistory.withVersion]
  | laid i v hbase hi he _ hbelow =>
    have hle := hts i rfl hi
    have hbelow' : base.Below ts := fun e he => (hbelow e he).trans_le hle
    rw [ownValue_laid hi hbelow]
    refine ⟨?_, fun _ => hbelow'⟩
    have hold : ts = ⊥ ∨ ts = i.timestamp → i.timestamp = ts := by
      rintro (rfl | heq)
      · exact le_bot_iff.mp hle
      · exact heq.symm
    simp only [mvccResolveIntent, KeyHistory.withVersion, hbase]
    by_cases hsame : ts = ⊥ ∨ ts = i.timestamp
    · simp [hi, hold hsame]
    · simp [hi, hsame, Chain.get_put_of_newest hbelow, Chain.delete_put_of_newest hbelow]

theorem Overlaid.resolve_aborted (ho : Overlaid txn base h) (ts : Timestamp) :
    mvccResolveIntent h key txn.id .aborted ts = .ok base := by
  cases ho with
  | bare hbase =>
    unfold mvccResolveIntent
    cases hi : base.intent with
    | none => simp
    | some i => simp [hbase i hi]
  | laid i v hbase hi he _ hbelow =>
    have hb : (⟨none, base.versions⟩ : KeyHistory) = base := by rw [← hbase]
    simp [mvccResolveIntent, hi, Chain.delete_put_of_newest hbelow, hb]

end Overlay

end Datax
