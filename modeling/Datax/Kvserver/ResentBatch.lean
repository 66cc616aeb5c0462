import Datax.Kvserver.TxnWrites
import Datax.Storage.MvccRewrite
import Datax.Storage.ScanWalk

/-!
# A batch evaluated twice

A coordinator that does not learn a batch's fate sends it again, and the second evaluation finds the
intents of the first. It answers the same when every key that is incremented or locked before the
batch writes it holds at the end of the batch what it held before; and it leaves the same histories
when no key is written just once with a history to keep.
-/

namespace Datax

open List IntentResponse Fallible

def writeAll (txn : TxnMeta) (data : Key → KeyHistory) (ws : List (Key × Option Bytes)) :
    Key → KeyHistory :=
  ws.foldl (fun d w => Function.update d w.1 (rewrite txn (d w.1) w.2)) data

def Ranges.lay (st : Ranges) (txn : TxnMeta) (ws : List (Key × Option Bytes)) : Ranges :=
  { st with data := writeAll txn st.data ws }

def valuesAt (ws : List (Key × Option Bytes)) (k : Key) : List (Option Bytes) :=
  (ws.filter fun w => w.1 == k).map Prod.snd

/-- The last of the writes to the key. -/
def left (ws : List (Key × Option Bytes)) (k : Key) : Option (Option Bytes) :=
  (valuesAt ws k).getLast?

def number (value : Option Bytes) : Option Int := value.elim (some 0) parseInt

def scanOptions (h : BatchHeader) : MVCCGetOptions :=
  { txn := h.meta?, targetBytes := scanTargetBytes }

section Plan
variable (h : BatchHeader) (data : Key → KeyHistory) (ws : List (Key × Option Bytes))

/-- What a get of the transaction finds, if it succeeds: the last of the batch's writes so far, or
what was there before the batch. -/
def found (ts : Timestamp) (k : Key) : Option (Option Bytes) :=
  match left ws k with
  | some v => some (v.bind copyBytes)
  | none => (mvccGet (data k) k ts { txn := h.meta? }).toOption

/-- The same for a scan, which tells an empty value from none. -/
def foundRow (k : Key) : Option Bytes :=
  match left ws k with
  | some v => v
  | none => (mvccScanKey (data k) k (readTimestamp h) (scanOptions h) []).toOption.bind Prod.fst

def walked (start stop : Key) (maxRows : Nat) (stored : StoredKeys) : List (Key × Option Bytes) :=
  walk maxRows scanTargetBytes
    ((stored.keys.filter fun k => start ≤ k ∧ k < stop).map fun k => (k, foundRow h data ws k)) 0 0

/-- The writes of a request after those in `ws`. -/
def IntentRequest.plan : IntentRequest → List (Key × Option Bytes)
  | .put key value => [(key, some value)]
  | .delete key => [(key, none)]
  | .increment key amount => [(key,
      ((found h data ws maxTimestamp key).bind number).map fun n =>
        formatInt (wrapInt64 (n + amount)))]
  | .getForUpdate key => [(key, (found h data ws (readTimestamp h) key).join)]
  | .scanForUpdate start stop maxRows stored =>
    (walked h data ws start stop maxRows stored).filter fun p => p.2.isSome

def planned (qs : List IntentRequest) : List (Key × Option Bytes) :=
  qs.foldl (fun ws q => ws ++ q.plan h data ws) ws

/-- What the request reads at a key that is not written by then, `all` the writes of the batch
leave there: the number for an increment, the value for a locking read. -/
def IntentRequest.Restored (all : List (Key × Option Bytes)) : IntentRequest → Prop
  | .put _ _ => True
  | .delete _ => True
  | .increment key _ => left ws key = none →
    (found h data all maxTimestamp key).bind number = (found h data [] maxTimestamp key).bind number
  | .getForUpdate key => left ws key = none →
    found h data all (readTimestamp h) key = found h data [] (readTimestamp h) key
  | .scanForUpdate start stop maxRows stored =>
    ∀ p ∈ walked h data ws start stop maxRows stored, left ws p.1 = none →
      foundRow h data all p.1 = p.2

end Plan

section Writes
variable {txn : TxnMeta} {data : Key → KeyHistory} {ws : List (Key × Option Bytes)} {k : Key}
  {v : Option Bytes}

section
variable (txn) (data)

theorem writeAll_append (ws ws' : List (Key × Option Bytes)) :
    writeAll txn data (ws ++ ws') = writeAll txn (writeAll txn data ws) ws' := foldl_append

theorem writeAll_apply (ws : List (Key × Option Bytes)) (k : Key) :
    writeAll txn data ws k = rewriteAll txn (data k) (valuesAt ws k) := by
  induction ws generalizing data with
  | nil => rfl
  | cons w ws ih =>
    change writeAll txn (Function.update data w.1 (rewrite txn (data w.1) w.2)) ws k = _
    rw [ih]
    unfold valuesAt
    rw [filter_cons]
    by_cases heq : w.1 = k
    · subst heq
      rw [Function.update_self, beq_self_eq_true, if_pos rfl]
      rfl
    · rw [Function.update_of_ne (Ne.symm heq), beq_false_of_ne heq]
      rfl

end

theorem lay_append (st : Ranges) (txn : TxnMeta) (ws ws' : List (Key × Option Bytes)) :
    st.lay txn (ws ++ ws') = (st.lay txn ws).lay txn ws' := by
  rw [Ranges.lay, writeAll_append]
  rfl

theorem valuesAt_eq_nil_iff : valuesAt ws k = [] ↔ k ∉ ws.map Prod.fst := by
  unfold valuesAt
  rw [map_eq_nil_iff, filter_eq_nil_iff, mem_map]
  constructor
  · rintro hno ⟨w, hw, rfl⟩
    exact hno w hw (beq_self_eq_true _)
  · intro hno w hw heq
    exact hno ⟨w, hw, beq_iff_eq.mp heq⟩

theorem left_eq_none_iff : left ws k = none ↔ k ∉ ws.map Prod.fst := by
  rw [left, getLast?_eq_none_iff, valuesAt_eq_nil_iff]

theorem left_of_mem (hk : k ∈ ws.map Prod.fst) : ∃ v, left ws k = some v :=
  Option.ne_none_iff_exists'.mp fun hnone => left_eq_none_iff.mp hnone hk

theorem writeAll_left (txn : TxnMeta) (data : Key → KeyHistory) (hv : left ws k = some v) :
    ∃ history, writeAll txn data ws k =
      ⟨some ⟨txn, txn.writeTimestamp, history⟩, (data k).beneath.put txn.writeTimestamp v⟩ := by
  obtain ⟨before, hbefore⟩ := getLast?_eq_some_iff.mp hv
  rw [writeAll_apply, hbefore, rewriteAll_eq]
  exact ⟨_, rfl⟩

theorem writeAll_intent (txn : TxnMeta) (data : Key → KeyHistory) (hk : k ∈ ws.map Prod.fst) :
    ∃ history, (writeAll txn data ws k).intent = some ⟨txn, txn.writeTimestamp, history⟩ := by
  obtain ⟨v, hv⟩ := left_of_mem hk
  obtain ⟨history, heq⟩ := writeAll_left txn data hv
  exact ⟨history, by rw [heq]⟩

theorem writeAll_of_not_mem (hk : k ∉ ws.map Prod.fst) : writeAll txn data ws k = data k := by
  rw [writeAll_apply, valuesAt_eq_nil_iff.mpr hk]
  rfl

section Own
variable (hts : txn.writeTimestamp ≠ ⊥) (hv : left ws k = some v)
include hts hv

theorem mvccGet_left (ts : Timestamp) :
    mvccGet (writeAll txn data ws k) k ts { txn := some txn } = .ok (v.bind copyBytes) := by
  obtain ⟨history, heq⟩ := writeAll_left txn data hv
  have hempty : txn.writeTimestamp.isEmpty = false :=
    Bool.eq_false_iff.mpr (mt Timestamp.isEmpty_iff.mp hts)
  have hseen :=
    (visible_bot _ _).trans (Shared.Chain.upTo_put_self (data k).beneath txn.writeTimestamp v)
  simp [heq, mvccGet, viewIntent, hempty, readProvisional, hseen]

theorem mvccScanKey_left {ts : Timestamp} {opts : MVCCGetOptions} (hopts : opts.txn = some txn) :
    mvccScanKey (writeAll txn data ws k) k ts opts [] = .ok (v, []) := by
  obtain ⟨history, heq⟩ := writeAll_left txn data hv
  have hempty : txn.writeTimestamp.isEmpty = false :=
    Bool.eq_false_iff.mpr (mt Timestamp.isEmpty_iff.mp hts)
  have hseen :=
    (visible_bot _ _).trans (Shared.Chain.upTo_put_self (data k).beneath txn.writeTimestamp v)
  simp [heq, mvccScanKey, viewIntent, hopts, hempty, hseen]

end Own

end Writes

def IntentRequest.writes : IntentRequest → IntentResponse → List (Key × Option Bytes)
  | .put key value, _ => [(key, some value)]
  | .delete key, _ => [(key, none)]
  | .increment key _, .increment v => [(key, some (formatInt v))]
  | .getForUpdate key, .get value => [(key, value)]
  | .scanForUpdate _ _ _ _, .scan res => res.kvs.map fun kv => (kv.key, some kv.value)
  | _, _ => []

def writesOf : List IntentRequest → List IntentResponse → List (Key × Option Bytes)
  | q :: qs, r :: rs => q.writes r ++ writesOf qs rs
  | _, _ => []

/-- What the request answers, its writes apart. -/
def IntentRequest.answer (h : BatchHeader) (st : Ranges) : IntentRequest → Option IntentResponse
  | .put _ _ => some .put
  | .delete _ => some .delete
  | .increment key amount =>
    ((mvccGet (st.data key) key maxTimestamp { txn := h.meta? }).toOption.bind number).map fun n =>
      .increment (wrapInt64 (n + amount))
  | .getForUpdate key =>
    (mvccGet (st.data key) key (readTimestamp h) { txn := h.meta? }).toOption.map .get
  | .scanForUpdate start stop maxRows stored =>
    (MVCCScan (st.engine stored) start stop (readTimestamp h) maxRows (scanOptions h)).toOption.map
      .scan

variable {st : Ranges} {ts readTS : Timestamp} {value : Option Bytes} {kvs : List KeyValue}

section Requests
variable {h : BatchHeader} {txn : Transaction} {a b a' : Ranges} {q : IntentRequest}
  {resp : IntentResponse} {key : Key} {t : TxnMeta}

theorem mvccPut_ok (hp : mvccPut a key ts value (some t) = .ok a') :
    a' = a.lay t [(key, value)] := by
  unfold mvccPut at hp
  split at hp
  · rename_i kh hw
    cases hp
    rw [mvccWrite_eq_rewrite hw]
    rfl
  · cases hp

theorem mvccPut_own {i : MVCCMetadata} (hi : (b.data key).intent = some i) (hid : i.txn.id = t.id) :
    mvccPut b key ts value (some t) = .ok (b.lay t [(key, value)]) := by
  unfold mvccPut
  rw [mvccWrite_own hi hid]
  rfl

theorem lockRows_ok {conflicts : List Intent} (hl : lockRows readTS t kvs a conflicts = .ok a') :
    a' = a.lay t (kvs.map fun kv => (kv.key, some kv.value)) ∧ conflicts = [] := by
  induction kvs generalizing a conflicts with
  | nil =>
    cases conflicts with
    | nil =>
      cases hl
      exact ⟨rfl, rfl⟩
    | cons i is => cases hl
  | cons kv rest ih =>
    unfold lockRows at hl
    split at hl
    · rename_i a₁ hlock
      obtain ⟨heq, hc⟩ := ih hl
      rw [mvccPut_ok hlock] at heq
      exact ⟨heq, hc⟩
    · rename_i intents hlock
      exact absurd (ih hl).2 (collectIntents_ne_nil (mvccPut_conflict hlock))
    · cases hl

theorem lockRows_own (hown : ∀ kv ∈ kvs, ∃ i, (b.data kv.key).intent = some i ∧ i.txn.id = t.id) :
    lockRows readTS t kvs b [] =
      .ok (b.lay t (kvs.map fun kv => (kv.key, some kv.value))) := by
  induction kvs generalizing b with
  | nil => rfl
  | cons kv rest ih =>
    obtain ⟨i, hi, hid⟩ := hown kv mem_cons_self
    unfold lockRows mvccLock
    rw [mvccPut_own hi hid]
    dsimp only
    rw [ih]
    · rfl
    intro x hx
    by_cases heq : x.key = kv.key
    · have hmem : x.key ∈ [(kv.key, some kv.value)].map Prod.fst := by
        rw [heq]
        exact mem_cons_self
      obtain ⟨history, hnew⟩ := writeAll_intent t b.data hmem
      exact ⟨_, hnew, rfl⟩
    · obtain ⟨j, hj, hjd⟩ := hown x (mem_cons_of_mem _ hx)
      refine ⟨j, ?_, hjd⟩
      dsimp only [Ranges.lay]
      rw [writeAll_of_not_mem (by simpa using heq)]
      exact hj

theorem meta_of_txn (htxn : h.txn = some txn) : h.meta? = some txn.toTxnMeta := by
  unfold BatchHeader.meta?
  rw [htxn]
  rfl

theorem evalIntentRequest_ok (htxn : h.txn = some txn)
    (hq : evalIntentRequest h a q = .ok (a', resp)) :
    q.answer h a = some resp ∧ a' = a.lay txn.toTxnMeta (q.writes resp) := by
  have hmeta := meta_of_txn htxn
  cases q with
  | put key value | delete key =>
    rw [evalIntentRequest, hmeta] at hq
    obtain ⟨a₁, ha, heq⟩ := map_eq_ok.mp hq
    cases heq
    exact ⟨rfl, mvccPut_ok ha⟩
  | increment key amount =>
    rw [evalIntentRequest, evalIncrement] at hq
    split at hq
    · cases hq
    rename_i cur hcur
    split at hq
    · cases hq
    rename_i n hn
    rw [hmeta] at hq
    obtain ⟨a₁, ha, heq⟩ := map_eq_ok.mp hq
    cases heq
    refine ⟨?_, mvccPut_ok ha⟩
    rw [IntentRequest.answer, hcur]
    exact congrArg (Option.map _) hn
  | getForUpdate key =>
    rw [evalIntentRequest, hmeta] at hq
    split at hq
    · cases hq
    rename_i v hv
    obtain ⟨a₁, ha, heq⟩ := map_eq_ok.mp hq
    cases heq
    refine ⟨?_, mvccPut_ok ha⟩
    rw [IntentRequest.answer, hmeta, hv]
    rfl
  | scanForUpdate start stop maxRows stored =>
    rw [evalIntentRequest, evalScanForUpdate, hmeta] at hq
    split at hq
    · cases hq
    rename_i res hres
    obtain ⟨a₁, ha, heq⟩ := map_eq_ok.mp hq
    cases heq
    refine ⟨?_, (lockRows_ok ha).1⟩
    rw [IntentRequest.answer, scanOptions, hmeta, hres]
    rfl

def OwnedAt (b : Ranges) (id : UUID) (ws : List (Key × Option Bytes)) : Prop :=
  ∀ k ∈ ws.map Prod.fst, ∃ i, (b.data k).intent = some i ∧ i.txn.id = id

theorem evalIntentRequest_own (htxn : h.txn = some txn) (hanswer : q.answer h b = some resp)
    (hown : OwnedAt b txn.id (q.writes resp)) :
    evalIntentRequest h b q = .ok (b.lay txn.toTxnMeta (q.writes resp), resp) := by
  have hmeta := meta_of_txn htxn
  cases q with
  | put key value | delete key =>
    cases hanswer
    obtain ⟨i, hi, hid⟩ := hown key mem_cons_self
    rw [evalIntentRequest, hmeta, mvccPut_own hi hid]
    rfl
  | increment key amount =>
    obtain ⟨n, hn, rfl⟩ := Option.map_eq_some_iff.mp hanswer
    obtain ⟨cur, hcur, hn⟩ := Option.bind_eq_some_iff.mp hn
    obtain ⟨i, hi, hid⟩ := hown key mem_cons_self
    rw [evalIntentRequest, evalIncrement, ok_of_toOption hcur]
    dsimp only
    rw [show cur.elim (some 0) parseInt = some n from hn, hmeta]
    dsimp only
    rw [mvccPut_own hi hid]
    rfl
  | getForUpdate key =>
    obtain ⟨v, hv, rfl⟩ := Option.map_eq_some_iff.mp hanswer
    obtain ⟨i, hi, hid⟩ := hown key mem_cons_self
    rw [evalIntentRequest, ok_of_toOption hv, hmeta]
    dsimp only
    rw [mvccLock, mvccPut_own hi hid]
    rfl
  | scanForUpdate start stop maxRows stored =>
    obtain ⟨res, hres, rfl⟩ := Option.map_eq_some_iff.mp hanswer
    have hrows : ∀ kv ∈ res.kvs, ∃ i, (b.data kv.key).intent = some i ∧ i.txn.id = txn.id := by
      intro kv hkv
      apply hown
      exact mem_map.mpr ⟨(kv.key, some kv.value), mem_map.mpr ⟨kv, hkv, rfl⟩, rfl⟩
    rw [evalIntentRequest, evalScanForUpdate, ← scanOptions, ok_of_toOption hres, hmeta]
    dsimp only
    rw [lockRows_own hrows]
    rfl

end Requests

section Plan
variable {h : BatchHeader} {txn : Transaction} {q : IntentRequest} {resp : IntentResponse} {k : Key}
  {data : Key → KeyHistory} {ws all : List (Key × Option Bytes)} {v : Option Bytes}

theorem filter_isSome (w : List (Key × Option Bytes)) :
    (w.filterMap fun p => p.2.map (KeyValue.mk p.1)).map (fun kv => (kv.key, some kv.value)) =
      w.filter fun p => p.2.isSome := by
  induction w with
  | nil => rfl
  | cons p w ih =>
    obtain ⟨k, v⟩ := p
    cases v with
    | none => simpa using ih
    | some v => simpa using ih

theorem number_range {n : Int} (hn : number v = some n) : -2 ^ 63 ≤ n ∧ n < 2 ^ 63 := by
  cases v with
  | none =>
    cases hn
    exact ⟨by decide, by decide⟩
  | some s => exact parseInt_range hn

theorem wrapInt64_inj {v w amount : Int} (hv : -2 ^ 63 ≤ v ∧ v < 2 ^ 63)
    (hw : -2 ^ 63 ≤ w ∧ w < 2 ^ 63) (heq : wrapInt64 (v + amount) = wrapInt64 (w + amount)) :
    v = w := by
  unfold wrapInt64 at heq
  omega

section
variable (htxn : h.txn = some txn) (hts : txn.writeTimestamp ≠ ⊥)
include htxn hts

theorem toOption_mvccGet (data : Key → KeyHistory) (ws : List (Key × Option Bytes))
    (ts : Timestamp) (k : Key) :
    (mvccGet (writeAll txn.toTxnMeta data ws k) k ts { txn := h.meta? }).toOption =
      found h data ws ts k := by
  rw [found]
  cases hv : left ws k with
  | none => rw [writeAll_of_not_mem (left_eq_none_iff.mp hv)]
  | some v =>
    rw [meta_of_txn htxn, mvccGet_left hts hv]
    rfl

theorem found_writeAll (data : Key → KeyHistory) (all : List (Key × Option Bytes))
    (ts : Timestamp) :
    found h (writeAll txn.toTxnMeta data all) ws ts k =
      if left ws k = none then found h data all ts k else found h data ws ts k := by
  cases hv : left ws k with
  | none => rw [if_pos rfl, found, hv, ← toOption_mvccGet htxn hts data all]
  | some v => rw [if_neg (Option.some_ne_none v), found, found, hv]

theorem scanKey_foundRow (data : Key → KeyHistory) (hv : left ws k = some v) :
    mvccScanKey (writeAll txn.toTxnMeta data ws k) k (readTimestamp h) (scanOptions h) [] =
      .ok (v, []) ∧ foundRow h data ws k = v := by
  rw [mvccScanKey_left hts hv (meta_of_txn htxn), foundRow, hv]
  exact ⟨rfl, rfl⟩

theorem foundRow_of_scanKey (data : Key → KeyHistory) (ws : List (Key × Option Bytes)) (k : Key)
    (v : Option Bytes) (hscan : mvccScanKey (writeAll txn.toTxnMeta data ws k) k (readTimestamp h)
      (scanOptions h) [] = .ok (v, [])) :
    v = foundRow h data ws k := by
  cases hv : left ws k with
  | none =>
    rw [writeAll_of_not_mem (left_eq_none_iff.mp hv)] at hscan
    rw [foundRow, hv, hscan]
    rfl
  | some w =>
    obtain ⟨hw, hrow⟩ := scanKey_foundRow htxn hts data hv
    rw [hw] at hscan
    cases hscan
    exact hrow.symm

theorem writes_eq_plan (hanswer : q.answer h (st.lay txn.toTxnMeta ws) = some resp) :
    q.writes resp = q.plan h st.data ws := by
  cases q with
  | put key value | delete key => rfl
  | increment key amount =>
    obtain ⟨n, hn, rfl⟩ := Option.map_eq_some_iff.mp hanswer
    rw [Ranges.lay, toOption_mvccGet htxn hts] at hn
    rw [IntentRequest.plan, hn]
    rfl
  | getForUpdate key =>
    obtain ⟨v, hv, rfl⟩ := Option.map_eq_some_iff.mp hanswer
    rw [Ranges.lay, toOption_mvccGet htxn hts] at hv
    rw [IntentRequest.plan, hv]
    rfl
  | scanForUpdate start stop maxRows stored =>
    obtain ⟨res, hres, rfl⟩ := Option.map_eq_some_iff.mp hanswer
    have hres := ok_of_toOption hres
    rw [MVCCScan, Ranges.engine, filter_map] at hres
    have hrows := (scanLoop_walk (foundRow_of_scanKey htxn hts st.data ws) hres).1
    rw [IntentRequest.writes, hrows]
    exact filter_isSome _

omit htxn hts in
theorem answer_scan_iff {start stop : Key} {maxRows : Nat} {stored : StoredKeys}
    {res : ScanResult} :
    IntentRequest.answer h st (.scanForUpdate start stop maxRows stored) = some (.scan res) ↔
      MVCCScan (st.engine stored) start stop (readTimestamp h) maxRows (scanOptions h) =
        .ok res := by
  constructor
  · intro hanswer
    obtain ⟨res', hscan, heq⟩ := Option.map_eq_some_iff.mp hanswer
    cases heq
    exact ok_of_toOption hscan
  · intro hscan
    rw [IntentRequest.answer, hscan]
    rfl

theorem scan_again_iff {start stop : Key} {maxRows : Nat} {stored : StoredKeys} {res : ScanResult}
    (hres : MVCCScan ((st.lay txn.toTxnMeta ws).engine stored) start stop (readTimestamp h) maxRows
      (scanOptions h) = .ok res) :
    MVCCScan (((st.lay txn.toTxnMeta all).lay txn.toTxnMeta ws).engine stored) start stop
        (readTimestamp h) maxRows (scanOptions h) = .ok res ↔
      IntentRequest.Restored h st.data ws all (.scanForUpdate start stop maxRows stored) := by
  rw [IntentRequest.Restored]
  rw [MVCCScan, Ranges.engine, filter_map] at hres ⊢
  have hval := foundRow_of_scanKey htxn hts st.data ws
  have hnodup : (stored.keys.filter fun k => start ≤ k ∧ k < stop).Nodup :=
    (stored.sorted.imp ne_of_lt).filter _
  refine (scanLoop_same_iff hval hres hnodup).trans (forall₂_congr fun p hp => ?_)
  have hfound := (scanLoop_walk hval hres).2 p hp
  dsimp only [Ranges.lay] at hfound ⊢
  -- a key written by then is found the same, one that is not holds what the batch leaves
  cases hleft : left ws p.1 with
  | some v =>
    rw [(scanKey_foundRow htxn hts _ hleft).1] at hfound ⊢
    exact iff_of_true hfound fun hnone => absurd hnone (Option.some_ne_none v)
  | none =>
    rw [forall_prop_of_true rfl]
    rw [writeAll_of_not_mem (left_eq_none_iff.mp hleft)] at hfound ⊢
    cases hkey : left all p.1 with
    | some v =>
      obtain ⟨hscan, hrow⟩ := scanKey_foundRow htxn hts st.data hkey
      rw [hscan, hrow]
      simp
    | none =>
      rw [writeAll_of_not_mem (left_eq_none_iff.mp hkey), foundRow, hkey, hfound]
      exact iff_of_true rfl rfl

/-- A request answers the same again exactly when the batch restores what it reads. -/
theorem answer_again_iff (hanswer : q.answer h (st.lay txn.toTxnMeta ws) = some resp) :
    q.answer h ((st.lay txn.toTxnMeta all).lay txn.toTxnMeta ws) = some resp ↔
      q.Restored h st.data ws all := by
  have hbefore : ∀ {k ts}, left ws k = none →
      found h st.data ws ts k = found h st.data [] ts k := by
    intro k ts hleft
    rw [found, hleft]
    rfl
  cases q with
  | put key value | delete key => exact iff_of_true hanswer trivial
  | increment key amount =>
    dsimp only [IntentRequest.answer, Ranges.lay] at hanswer ⊢
    rw [toOption_mvccGet htxn hts] at hanswer ⊢
    rw [found_writeAll htxn hts, IntentRequest.Restored]
    by_cases hleft : left ws key = none
    · rw [hbefore hleft] at hanswer
      rw [if_pos hleft, forall_prop_of_true hleft, ← hanswer]
      constructor
      · intro hsame
        obtain ⟨n, hn, hresp⟩ := Option.map_eq_some_iff.mp hanswer
        obtain ⟨m, hm, hresp'⟩ := Option.map_eq_some_iff.mp (hsame.trans hanswer)
        obtain ⟨_, _, hnumber⟩ := Option.bind_eq_some_iff.mp hn
        obtain ⟨_, _, hnumber'⟩ := Option.bind_eq_some_iff.mp hm
        have hwrap := increment.inj (hresp'.trans hresp.symm)
        rw [hn, hm, wrapInt64_inj (number_range hnumber') (number_range hnumber) hwrap]
      · exact congrArg _
    · rw [if_neg hleft]
      exact iff_of_true hanswer fun hnone => absurd hnone hleft
  | getForUpdate key =>
    dsimp only [IntentRequest.answer, Ranges.lay] at hanswer ⊢
    rw [toOption_mvccGet htxn hts] at hanswer ⊢
    rw [found_writeAll htxn hts, IntentRequest.Restored]
    by_cases hleft : left ws key = none
    · rw [hbefore hleft] at hanswer
      rw [if_pos hleft, forall_prop_of_true hleft, ← hanswer]
      exact (Option.map_injective fun _ _ => get.inj).eq_iff
    · rw [if_neg hleft]
      exact iff_of_true hanswer fun hnone => absurd hnone hleft
  | scanForUpdate start stop maxRows stored =>
    obtain ⟨res, hres, rfl⟩ := Option.map_eq_some_iff.mp hanswer
    rw [answer_scan_iff]
    exact scan_again_iff htxn hts (ok_of_toOption hres)

end

end Plan

section Batch
variable {h : BatchHeader} {txn : Transaction} {a' : Ranges} {qs : List IntentRequest}
  {resps : List IntentResponse} {ws all : List (Key × Option Bytes)}

theorem mem_planned {data : Key → KeyHistory} (qs : List IntentRequest) {k : Key}
    (hk : k ∈ ws.map Prod.fst) :
    k ∈ (planned h data ws qs).map Prod.fst := by
  induction qs generalizing ws with
  | nil => exact hk
  | cons q qs ih =>
    apply ih
    rw [map_append]
    exact mem_append_left _ hk

/-- The batch restores what its increments and locking reads found. -/
def Restores (h : BatchHeader) (data : Key → KeyHistory) (ws all : List (Key × Option Bytes))
    (qs : List IntentRequest) : Prop :=
  ∀ before q after, qs = before ++ q :: after → q.Restored h data (planned h data ws before) all

theorem restores_cons_iff {data : Key → KeyHistory} {q : IntentRequest} :
    Restores h data ws all (q :: qs) ↔
    q.Restored h data ws all ∧ Restores h data (ws ++ q.plan h data ws) all qs := by
  constructor
  · intro hall
    refine ⟨hall [] q qs rfl, ?_⟩
    intro before q' after hsplit
    exact hall (q :: before) q' after (by rw [hsplit, cons_append])
  · rintro ⟨hfirst, hrest⟩ before q' after hsplit
    cases before with
    | nil =>
      cases hsplit
      exact hfirst
    | cons p before =>
      cases hsplit
      exact hrest before q' after rfl

theorem evalIntentRequests_ok {a : Ranges} (htxn : h.txn = some txn)
    (hq : evalIntentRequests h qs a [] = .ok (a', resps)) :
    a' = a.lay txn.toTxnMeta (writesOf qs resps) := by
  induction qs generalizing a resps with
  | nil =>
    cases hq
    rfl
  | cons q qs ih =>
    obtain ⟨a₁, resp, resps₁, hfirst, hrest, rfl⟩ := evalIntentRequests_cons_iff.mp hq
    rw [ih hrest, (evalIntentRequest_ok htxn hfirst).2, writesOf, lay_append]

section
variable (htxn : h.txn = some txn) (hts : txn.writeTimestamp ≠ ⊥)
  (hq : evalIntentRequests h qs (st.lay txn.toTxnMeta ws) [] = .ok (a', resps))
include htxn hts hq

theorem planned_eq : planned h st.data ws qs = ws ++ writesOf qs resps := by
  induction qs generalizing ws resps with
  | nil =>
    cases hq
    exact (append_nil ws).symm
  | cons q qs ih =>
    obtain ⟨a₁, resp, resps₁, hfirst, hrest, rfl⟩ := evalIntentRequests_cons_iff.mp hq
    obtain ⟨hanswer, rfl⟩ := evalIntentRequest_ok htxn hfirst
    have hplan := writes_eq_plan htxn hts hanswer
    rw [hplan, ← lay_append] at hrest
    rw [writesOf, hplan, ← append_assoc]
    exact ih hrest

theorem evalIntentRequests_again_iff (hall : all = planned h st.data ws qs) :
    (∃ b', evalIntentRequests h qs ((st.lay txn.toTxnMeta all).lay txn.toTxnMeta ws) [] =
      .ok (b', resps)) ↔
      Restores h st.data ws all qs := by
  induction qs generalizing ws resps with
  | nil =>
    cases hq
    exact iff_of_true ⟨_, rfl⟩ fun before q after hsplit => absurd hsplit (by simp)
  | cons q qs ih =>
    obtain ⟨a₁, resp, resps₁, hfirst, hrest, rfl⟩ := evalIntentRequests_cons_iff.mp hq
    obtain ⟨hanswer, rfl⟩ := evalIntentRequest_ok htxn hfirst
    have hplan := writes_eq_plan htxn hts hanswer
    have hlater := ih (by rw [lay_append, ← hplan]; exact hrest) hall
    rw [restores_cons_iff, ← answer_again_iff htxn hts hanswer, ← hlater]
    -- the second evaluation finds the intents of the first
    have hown : OwnedAt ((st.lay txn.toTxnMeta all).lay txn.toTxnMeta ws) txn.id
        (q.writes resp) := by
      intro k hk
      have hkey : k ∈ all.map Prod.fst := by
        rw [hall]
        refine mem_planned qs ?_
        rw [map_append, ← hplan]
        exact mem_append_right _ hk
      dsimp only [Ranges.lay]
      by_cases hws : k ∈ ws.map Prod.fst
      · obtain ⟨history, hi⟩ :=
          writeAll_intent txn.toTxnMeta (writeAll txn.toTxnMeta st.data all) hws
        exact ⟨_, hi, rfl⟩
      · obtain ⟨history, hi⟩ := writeAll_intent txn.toTxnMeta st.data hkey
        rw [writeAll_of_not_mem hws]
        exact ⟨_, hi, rfl⟩
    constructor
    · rintro ⟨b', hb'⟩
      obtain ⟨b₁, resp', resps', hbq, hbrest, heq⟩ := evalIntentRequests_cons_iff.mp hb'
      cases heq
      obtain ⟨hagain, rfl⟩ := evalIntentRequest_ok htxn hbq
      rw [hplan, ← lay_append] at hbrest
      exact ⟨hagain, b', hbrest⟩
    · rintro ⟨hagain, b', hbrest⟩
      rw [lay_append, ← hplan] at hbrest
      have hbq := evalIntentRequest_own htxn hagain hown
      exact ⟨b', evalIntentRequests_cons_iff.mpr ⟨_, resp, resps₁, hbq, hbrest, rfl⟩⟩

end

theorem writeAll_again_iff (t : TxnMeta) (data : Key → KeyHistory)
    (ws : List (Key × Option Bytes)) :
    writeAll t (writeAll t data ws) ws = writeAll t data ws ↔
      t.historyFloor < 0 ∨ ∀ k v, valuesAt ws k = [v] → AlreadyHolds t (data k) v := by
  have hkey : ∀ k, writeAll t (writeAll t data ws) ws k = writeAll t data ws k ↔
      t.historyFloor < 0 ∨ ∀ v, valuesAt ws k = [v] → AlreadyHolds t (data k) v := by
    intro k
    rw [writeAll_apply, writeAll_apply]
    exact rewriteAll_again_iff t (data k) (valuesAt ws k)
  constructor
  · intro heq
    by_cases hneg : t.historyFloor < 0
    · exact .inl hneg
    right
    intro k
    exact ((hkey k).mp (congrFun heq k)).resolve_left hneg
  · intro hcond
    funext k
    exact (hkey k).mpr (hcond.imp_right fun hall => hall k)

theorem evalCreate_again {gcThreshold : Timestamp} {st₀ st₁ : Ranges}
    (hcreate : evalCreate gcThreshold st h = .ok st₀) (hrecord : st₁.record = st₀.record) :
    st₀ = { st with record := st₁.record } ∧ evalCreate gcThreshold st₁ h = .ok st₁ := by
  rcases evalCreate_cases hcreate with ⟨hc, rfl⟩ | ⟨hc, t, ht, hr, rfl⟩
  · simp [evalCreate, hc, hrecord]
  · dsimp only at hrecord
    have hagain : createTxnRecord gcThreshold st₁.record t = .ok { t with status := .pending } := by
      apply createTxnRecord_ok_iff.mpr
      refine ⟨(createTxnRecord_ok_iff.mp hr).1, ?_, rfl⟩
      rw [hrecord]
      rintro e ⟨⟩
      exact .inl rfl
    simp only [evalCreate, hc, if_true, ht, hagain, Except.map, ← hrecord, and_self]

end Batch

section Examples

private def sender (floor : Int) : Transaction :=
  { id := 1, key := [1], epoch := 0
    writeTimestamp := ⟨10, 0⟩, minTimestamp := ⟨10, 0⟩, priority := 0
    sequence := 1, historyFloor := floor, readTimestamp := ⟨10, 0⟩, status := .pending,
    lastHeartbeat := ⊥
    intentKeys := [], waitingFor := 0, waitingForKey := [], inFlightKeys := [] }

private def blank : Ranges := ⟨none, fun _ => KeyHistory.empty⟩

private theorem exists_ok_of_any {α : Type} {x : Except KVError α} {test : α → Bool}
    (h : x.toOption.any test = true) : ∃ a, x = .ok a ∧ test a = true := by
  cases x with
  | error err => cases h
  | ok a => exact ⟨a, rfl, h⟩

end Examples

end Datax
