import Datax.Shared.Keyed
import Datax.Sql.DescLeaseInvariant

/-!
# What a drain guarantees

`orderly` steps keep the accounts: no entry is taken and no acquisition started while a lease for
the same name or table is in flight, an entry is dropped only once nothing it accounts for can still
commit, a table is cached under one name when its lease is acquired or released, updates start from
the current descriptor, and no gateway with an older version has a faster clock than the drain. Then
no transaction below a drained version commits above the drain's end. `Update` drops the very entry
that accounts for the statements of its own gateway.
-/

namespace Datax.Catalog

open AList Function Runs

open List (all_eq_true any_eq_true not_mem_nil)

open GatewayState State Acquisition

/-! ## Reading a gateway -/

def Acquisition.pending : Acquisition → Option (Pending × Bool)
  | .leasing p b => some (p, b)
  | _ => none

variable {key : CacheKey} {id : TableID} {session : SessionID} {p : Pending} {gs : GatewayState}

namespace GatewayState

def pendings (gs : GatewayState) : List Pending :=
  gs.acquiring.entries.filterMap fun x => x.2.pending.map Prod.fst

def busy (gs : GatewayState) (key : CacheKey) (id : TableID) : Bool :=
  gs.pendings.any fun p => p.key == key || p.desc.id == id

def cachedOnlyAs (gs : GatewayState) (key : CacheKey) (id : TableID) : Bool :=
  gs.cache.entries.all fun x => x.1 == key || x.2.desc.id != id

def forgot (gs : GatewayState) (id : TableID) : Bool :=
  gs.cache.entries.all (fun x => x.2.desc.id != id) && gs.pendings.all fun p => p.desc.id != id

/-- The entries of these names account for nothing that can still commit. -/
def settled (gs : GatewayState) (dropped : CacheKey → Bool) : Bool :=
  gs.cache.entries.all fun x => !dropped x.1 || x.2.settled gs.now

def view (gs : GatewayState) : View where
  now := gs.now
  ttl := gs.ttl
  cache k := gs.cache.lookup k
  leasing session := (gs.acquiring.lookup session).bind pending

variable {gs : GatewayState}

theorem mem_entries {k : CacheKey} {e : CachedDesc} (h : gs.view.cache k = some e) :
    ⟨k, e⟩ ∈ gs.cache.entries :=
  mem_lookup_iff.mp h

theorem mem_pendings {b : Bool} (h : gs.view.leasing session = some (p, b)) : p ∈ gs.pendings := by
  obtain ⟨a, ha, hp⟩ := Option.bind_eq_some_iff.mp h
  refine List.mem_filterMap.mpr ⟨⟨session, a⟩, mem_lookup_iff.mp ha, ?_⟩
  rw [hp]
  rfl

theorem free_of_not_busy (h : gs.busy key id = false) (session : SessionID) (p : Pending) (b : Bool)
    (hp : gs.view.leasing session = some (p, b)) : p.key ≠ key ∧ p.desc.id ≠ id := by
  have := List.any_eq_false.mp h p (mem_pendings hp)
  simpa only [Bool.or_eq_true, beq_iff_eq, not_or] using this

theorem eq_of_cachedOnlyAs (h : gs.cachedOnlyAs key id = true) (k : CacheKey) (e : CachedDesc)
    (he : gs.view.cache k = some e) (hid : e.desc.id = id) : k = key := by
  have := all_eq_true.mp h _ (mem_entries he)
  simp only [Bool.or_eq_true, beq_iff_eq, bne_iff_ne, hid, ne_eq, not_true_eq_false,
    or_false] at this
  exact this

theorem entry_of_forgot (h : gs.forgot id = true) (k : CacheKey) (e : CachedDesc)
    (he : gs.view.cache k = some e) :
    e.desc.id ≠ id := by
  have := all_eq_true.mp (Bool.and_eq_true_iff.mp h).1 _ (mem_entries he)
  simpa only [bne_iff_ne] using this

theorem pending_of_forgot (h : gs.forgot id = true) (session : SessionID) (p : Pending) (b : Bool)
    (hp : gs.view.leasing session = some (p, b)) : p.desc.id ≠ id := by
  have := all_eq_true.mp (Bool.and_eq_true_iff.mp h).2 p (mem_pendings hp)
  simpa only [bne_iff_ne] using this

theorem settled_entry {dropped : CacheKey → Bool} (h : gs.settled dropped = true) (k : CacheKey)
    (e : CachedDesc) (hk : dropped k = true) (he : gs.view.cache k = some e) :
    e.settled gs.now = true := by
  have := all_eq_true.mp h _ (mem_entries he)
  simpa only [hk, Bool.not_true, Bool.false_or] using this

theorem view_insertCache (gs : GatewayState) (k : CacheKey) (e : CachedDesc) :
    ({ gs with cache := gs.cache.insert k e } : GatewayState).view =
      { gs.view with cache := update gs.view.cache k (some e) } := by
  unfold view
  rw [Keyed.lookup_insert]
  rfl

theorem view_acquiring {acquiring : AList fun _ : SessionID => Acquisition} {x : Option Acquisition}
    (h : (fun k => acquiring.lookup k) = update (fun k => gs.acquiring.lookup k) session x) :
    ({ gs with acquiring := acquiring } : GatewayState).view =
      gs.view.setLeasing session (x.bind pending) := by
  have hlookup := congrArg (fun f => fun s => (f s).bind pending) h
  simp only [apply_update fun _ x => Option.bind x pending] at hlookup
  unfold view
  rw [hlookup]
  rfl

section
variable (gs)

theorem view_insertAcquiring (session : SessionID) (a : Acquisition) :
    ({ gs with acquiring := gs.acquiring.insert session a } : GatewayState).view =
      gs.view.setLeasing session a.pending :=
  view_acquiring (Keyed.lookup_insert gs.acquiring session a)

theorem view_eraseAcquiring (session : SessionID) :
    ({ gs with acquiring := gs.acquiring.erase session } : GatewayState).view =
      gs.view.setLeasing session none :=
  view_acquiring (Keyed.lookup_erase gs.acquiring session)

theorem view_invalidate (bare : String) :
    ({ gs with cache := gs.cache.invalidate bare } : GatewayState).view = gs.view.drop fun k =>
      k.name == bare := by
  have : (fun k => (gs.cache.invalidate bare).lookup k) =
      fun k => if (k.name == bare) = true then none else gs.view.cache k := by
    funext k
    refine Option.ext fun e => ?_
    rw [← Option.mem_def, mem_lookup_iff]
    change _ ∈ gs.cache.entries.filter _ ↔ _
    rw [List.mem_filter]
    by_cases heq : k.name = bare
    · simp [heq]
    rw [if_neg (by simpa using heq)]
    simp only [bne_iff_ne, ne_eq, heq, not_false_eq_true, and_true]
    exact mem_lookup_iff.symm
  unfold view
  rw [this]
  rfl

theorem view_eraseCache (key : CacheKey) :
    ({ gs with cache := gs.cache.erase key } : GatewayState).view =
      gs.view.drop fun k => k == key := by
  have : (fun k => (gs.cache.erase key).lookup k) = fun k => if (k == key) = true then none
      else gs.view.cache k := by
    funext k
    by_cases heq : k = key
    · subst heq
      rw [lookup_erase, if_pos (beq_self_eq_true k)]
    · rw [lookup_erase_ne heq, if_neg (by simpa using heq)]
      rfl
  unfold view
  rw [this]
  rfl

end

theorem leasing_of_acquiring {a : Acquisition} (h : gs.acquiring.lookup session = some a) :
    gs.view.leasing session = a.pending := by
  change (gs.acquiring.lookup session).bind pending = _
  rw [h]
  rfl

end GatewayState

/-! ## The condition on the steps -/

def orderly (s : State) : Action → Bool
  | .lookupIn g _ key =>
    ((s.gateways g).cache.lookup key).all fun c => !(s.gateways g).busy key c.desc.id
  | .acquireLease g _ key _ =>
    (s.names key).all fun id => !(s.gateways g).busy key id && (s.gateways g).cachedOnlyAs key id
  | .install g session =>
    match (s.gateways g).acquiring.lookup session with
    | some (.leasing p _) =>
      ((s.gateways g).cache.lookup p.key).all fun e =>
        e.desc.id == p.desc.id || e.settled (s.gateways g).now
    | some (.absent key _) => (s.gateways g).settled fun k => k == key
    | _ => true
  | .release g session =>
    match (s.gateways g).acquiring.lookup session with
    | some (.releasing id) => (s.gateways g).forgot id
    | _ => true
  | .fail g session =>
    match (s.gateways g).acquiring.lookup session with
    | some (.leasing p true) => ((s.gateways g).cache.lookup p.key).isNone
    | _ => true
  | .invalidate g bare => (s.gateways g).settled fun k => k.name == bare
  | .update id base => base == s.versions id
  | .renameTable id base _ _ => base == s.versions id
  | .check i =>
    (s.drains[i]?).all fun d => s.uses.all fun u =>
      u.desc.id != d.desc.id || !decide (u.desc.version < d.desc.version) ||
        decide ((s.gateways u.gateway).now ≤ (s.gateways d.gateway).now)
  | _ => true

/-! ## The invariant of all gateways and drains -/

namespace State

def lease (s : State) (g : Gateway) (id : TableID) : Option DescLease := s.leases.lookup (id, g)

end State

def Took (uses : List Use) (g : Gateway) (desc : TableDescriptor) (exp : Nat) : Prop :=
  ∃ u ∈ uses, u.gateway = g ∧ u.desc = desc ∧ u.expiration = exp

theorem took_cons_self (uses : List Use) (u : Use) : Took (u :: uses) u.gateway =
      fun desc exp => desc = u.desc ∧ exp = u.expiration ∨ Took uses u.gateway desc exp := by
  funext desc exp
  refine propext ?_
  unfold Took
  rw [List.exists_mem_cons_iff]
  refine or_congr_left ?_
  constructor
  · rintro ⟨_, hdesc, hexp⟩
    exact ⟨hdesc.symm, hexp.symm⟩
  · rintro ⟨hdesc, hexp⟩
    exact ⟨rfl, hdesc.symm, hexp.symm⟩

theorem took_cons_of_ne (uses : List Use) {u : Use} {g : Gateway} (hne : g ≠ u.gateway) :
    Took (u :: uses) g = Took uses g := by
  funext desc exp
  refine propext ?_
  unfold Took
  rw [List.exists_mem_cons_iff]
  constructor
  · rintro (⟨hg, _⟩ | h)
    · exact absurd hg.symm hne
    · exact h
  · exact .inr

structure Inv (s : State) : Prop where
  gateway : ∀ g, GatewayInv s.versions (s.lease g) (s.gateways g).view (Took s.uses g)
  version : ∀ d ∈ s.drains, d.desc.version ≤ s.versions d.desc.id
  drain : ∀ d ∈ s.drains, ∀ g, DrainInv d.phase d.desc g (s.gateways g).view (Took s.uses g)
  pinned : ∀ u ∈ s.uses, (s.txns u.txn).deadline.isEmpty = false ∧
    (s.txns u.txn).deadline ≤ ⟨u.expiration, 0⟩
  committed : ∀ u ∈ s.uses, ∀ ts, (s.txns u.txn).committed = some ts → ts ≤ ⟨u.expiration, 0⟩

theorem inv_start (names : CacheKey → Option TableID) (versions : TableID → Nat)
    (gateways : Gateway → Timestamp × { ttl : Nat // 0 < ttl }) :
    Inv (start names versions gateways) where
  gateway := by
    intro g
    have htook : ∀ desc exp, ¬ Took [] g desc exp := by
      rintro desc exp ⟨u, hu, _⟩
      cases hu
    constructor
    case took_dated | took_cached | took_leased =>
      exact fun desc exp ht => absurd ht (htook desc exp)
    case entry_dated | entry_leased =>
      intro k e he
      cases he
    case pending_dated | pending_took | pending_only =>
      intro session p b hp
      cases hp
    case pending_written =>
      intro session p hp
      cases hp
    case pending_alone =>
      intro session p b session' p' b' hp
      cases hp
  version := fun d hd => absurd hd not_mem_nil
  drain := fun d hd => absurd hd not_mem_nil
  pinned := fun u hu => absurd hu not_mem_nil
  committed := fun u hu => absurd hu not_mem_nil

variable {leases : AList fun _ : TableID × Gateway => DescLease}

section Gateways
variable {s : State} {g : Gateway} {gs : GatewayState}

theorem Inv.setGateway {v : View} (h : Inv s) (hview : gs.view = v)
    (hothers : ∀ g', g' ≠ g → ∀ id, leases.lookup (id, g') = s.leases.lookup (id, g'))
    (hgw : GatewayInv s.versions (fun id => leases.lookup (id, g)) v (Took s.uses g))
    (hdrain : ∀ phase target, target.version ≤ s.versions target.id →
      DrainInv phase target g (s.gateways g).view (Took s.uses g) →
        DrainInv phase target g v (Took s.uses g)) :
    Inv { s.setGateway g gs with leases := leases } := { h with
  gateway := by
    refine (forall_update_iff s.gateways fun g' gs =>
      GatewayInv s.versions (fun id => leases.lookup (id, g')) gs.view (Took s.uses g')).mpr
      ⟨hview ▸ hgw, ?_⟩
    intro g' hne
    rw [funext (hothers g' hne)]
    exact h.gateway g'
  drain := by
    intro d hd
    refine (forall_update_iff s.gateways fun g' gs =>
      DrainInv d.phase d.desc g' gs.view (Took s.uses g')).mpr ⟨?_, fun g' _ => h.drain d hd g'⟩
    rw [hview]
    exact hdrain d.phase d.desc (h.version d hd) (h.drain d hd g) }

theorem Inv.setGateway_same {v : View} (h : Inv s) (hview : gs.view = v)
    (hgw : GatewayInv s.versions (s.lease g) v (Took s.uses g))
    (hdrain : ∀ phase target, DrainInv phase target g (s.gateways g).view (Took s.uses g) →
      DrainInv phase target g v (Took s.uses g)) : Inv (s.setGateway g gs) :=
  h.setGateway hview (fun _ _ _ => rfl) hgw fun phase target _ => hdrain phase target

theorem inv_tick {now : Timestamp} (h : Inv s) (hle : (s.gateways g).clock ≤ now) :
    Inv (s.setGateway g { s.gateways g with clock := now }) := by
  have hwall : (s.gateways g).view.now ≤ now.wallTime := by
    rcases Timestamp.le_iff.mp hle with hlt | ⟨heq, _⟩
    · exact hlt.le
    · exact heq.le
  exact h.setGateway_same rfl ((h.gateway g).later hwall fun _ => le_rfl) fun _ _ hd =>
    hd.tick hwall

theorem inv_invalidate {bare : String} (h : Inv s)
    (hset : (s.gateways g).settled (fun k => k.name == bare) = true) :
    Inv (s.setGateway g { s.gateways g with cache := (s.gateways g).cache.invalidate bare }) :=
  h.setGateway_same (view_invalidate _ bare) ((h.gateway g).drop (settled_entry hset)) fun _ _
    hd => hd.drop

end Gateways

variable {purpose : Purpose}

section Acquisitions
variable {s s' : State} {g : Gateway} {session : SessionID}

theorem GatewayState.view_inert (hnone : gs.view.leasing session = none) :
    gs.view.setLeasing session none = gs.view := by
  unfold View.setLeasing
  rw [← hnone, update_eq_self]

theorem inv_acquireLease (h : Inv s) (hg : orderly s (.acquireLease g session key purpose) = true)
    (hs : s.acquireLease g session key purpose = some s') : Inv s' := by
  unfold acquireLease at hs
  simp only at hs
  split at hs
  · cases hs
  rename_i ha
  have hfresh : (s.gateways g).view.leasing session = none := by
    change ((s.gateways g).acquiring.lookup session).bind _ = none
    rw [ha]
    rfl
  split at hs
  · cases hs
    have hview := view_insertAcquiring (s.gateways g) session (.absent key purpose)
    rw [show (absent key purpose).pending = none from rfl, view_inert hfresh] at hview
    exact h.setGateway_same hview (h.gateway g) fun _ _ hd => hd
  · rename_i id hn
    cases hs
    simp only [orderly, hn, Option.all_some, Bool.and_eq_true, Bool.not_eq_true'] at hg
    refine h.setGateway_same (view_insertAcquiring _ session _) ?_ fun _ _ hd => hd.acquire hfresh
    exact (h.gateway g).acquire hfresh rfl rfl (s.gateways g).ttl_pos
      (free_of_not_busy hg.1) (eq_of_cachedOnlyAs hg.2)

theorem lease_update {x : Option DescLease}
    (h : (fun y => leases.lookup y) = update (fun y => s.leases.lookup y) (id, g) x) :
    (∀ g', g' ≠ g → ∀ id', leases.lookup (id', g') = s.leases.lookup (id', g')) ∧
      (fun id' => leases.lookup (id', g)) = update (s.lease g) id x := by
  constructor
  · intro g' hne id'
    rw [congrFun h (id', g'), update_of_ne fun heq => hne (Prod.mk.inj heq).2]
  · funext id'
    rw [congrFun h (id', g), update_apply, update_apply]
    simp only [Prod.mk.injEq, and_true]
    rfl

theorem inv_commitLease (h : Inv s) (hs : s.commitLease g session = some s') : Inv s' := by
  unfold commitLease at hs
  simp only at hs
  split at hs
  · rename_i p ha
    split_ifs at hs with hcur
    cases hs
    have hp : (s.gateways g).view.leasing session = some (p, false) := leasing_of_acquiring ha
    obtain ⟨hothers, hlease⟩ := lease_update (Keyed.lookup_insert s.leases (p.desc.id, g) p.lease)
    refine h.setGateway (view_insertAcquiring _ session _) hothers ?_ ?_
    · rw [hlease]
      exact (h.gateway g).commitLease hp
    · intro phase target hle hd
      refine hd.commitLease hp fun hid => ?_
      rw [← hid, hcur.2] at hle
      exact hle
  · cases hs

theorem inv_release (h : Inv s) (hg : orderly s (.release g session) = true)
    (hs : s.release g session = some s') : Inv s' := by
  unfold release at hs
  simp only at hs
  split at hs
  · rename_i id ha
    cases hs
    simp only [orderly, ha] at hg
    have hview := view_eraseAcquiring (s.gateways g) session
    rw [view_inert (leasing_of_acquiring ha)] at hview
    obtain ⟨hothers, hlease⟩ := lease_update (Keyed.lookup_erase s.leases (id, g))
    refine h.setGateway hview hothers ?_ fun _ _ _ hd => hd
    rw [hlease]
    exact (h.gateway g).release (entry_of_forgot hg) (pending_of_forgot hg)
  · cases hs

theorem inv_erase (h : Inv s)
    (hempty : ∀ p, (s.gateways g).view.leasing session = some (p, true) →
      (s.gateways g).view.cache p.key = none) :
    Inv (s.setGateway g
      { s.gateways g with acquiring := (s.gateways g).acquiring.erase session }) :=
  h.setGateway_same (view_eraseAcquiring _ session) ((h.gateway g).fail hempty) fun _ _ hd =>
    hd.fail hempty

theorem inv_fail (h : Inv s) (hg : orderly s (.fail g session) = true)
    (hs : s.fail g session = some s') : Inv s' := by
  unfold fail at hs
  simp only at hs
  split at hs
  · rename_i a ha
    cases hs
    refine inv_erase h fun p hp => ?_
    rw [leasing_of_acquiring ha] at hp
    cases a with
    | leasing p' b =>
      cases hp
      simp only [orderly, ha, Option.isNone_iff_eq_none] at hg
      exact hg
    | absent key purpose | releasing id => cases hp
  · cases hs

end Acquisitions

section Txns
variable {s : State}

theorem pinDeadline_committed (t : TxnState) (exp : Nat) :
    (t.pinDeadline exp).committed = t.committed := by
  unfold TxnState.pinDeadline TxnState.updateDeadline
  split_ifs <;> rfl

theorem not_isEmpty_of_pos {exp : Nat} (hpos : 0 < exp) :
    (⟨exp, 0⟩ : Timestamp).isEmpty = false := by
  simp only [Timestamp.isEmpty, Bool.and_eq_false_iff, beq_eq_false_iff_ne]
  exact .inl (Nat.pos_iff_ne_zero.mp hpos)

theorem pinDeadline_le {t : TxnState} {bound : Timestamp} (exp : Nat)
    (h : t.deadline.isEmpty = false ∧ t.deadline ≤ bound) :
    (t.pinDeadline exp).deadline.isEmpty = false ∧ (t.pinDeadline exp).deadline ≤ bound := by
  unfold TxnState.pinDeadline TxnState.updateDeadline
  split
  · exact h
  split
  · exact h
  rename_i hne
  split
  · rename_i hless
    rw [h.1, Bool.false_or] at hless
    have hlt : (⟨exp, 0⟩ : Timestamp) < t.deadline := hless
    exact ⟨(Bool.not_eq_true _).mp hne, le_trans hlt.le h.2⟩
  · exact h

theorem pinDeadline_self (t : TxnState) {exp : Nat} (hpos : 0 < exp) :
    (t.pinDeadline exp).deadline.isEmpty = false ∧ (t.pinDeadline exp).deadline ≤ ⟨exp, 0⟩ := by
  have hne := not_isEmpty_of_pos hpos
  unfold TxnState.pinDeadline TxnState.updateDeadline
  rw [if_neg (by omega), hne, if_neg Bool.false_ne_true]
  split
  · exact ⟨hne, le_refl _⟩
  rename_i hkeep
  simp only [Bool.or_eq_true, not_or, Bool.not_eq_true] at hkeep
  refine ⟨hkeep.1, ?_⟩
  have hnlt : ¬ (⟨exp, 0⟩ : Timestamp) < t.deadline := by
    intro hlt
    rw [show Timestamp.less ⟨exp, 0⟩ t.deadline = true from hlt] at hkeep
    cases hkeep.2
  exact not_lt.mp hnlt

theorem pin_txns (txn txn' : TxnID) (exp : Nat) :
    (s.pin txn exp).txns txn' = if txn' = txn then (s.txns txn').pinDeadline exp
      else s.txns txn' := by
  change update s.txns txn ((s.txns txn).pinDeadline exp) txn' = _
  by_cases heq : txn' = txn
  · subst heq
    rw [update_self, if_pos rfl]
  · rw [update_of_ne heq, if_neg heq]

theorem inv_pin (h : Inv s) (txn : TxnID) (exp : Nat) : Inv (s.pin txn exp) := { h with
  pinned := by
    intro u hu
    rw [pin_txns]
    split
    · exact pinDeadline_le exp (h.pinned u hu)
    · exact h.pinned u hu
  committed := by
    intro u hu ts hts
    refine h.committed u hu ts ?_
    rw [pin_txns] at hts
    split at hts
    · rwa [pinDeadline_committed] at hts
    · exact hts }

theorem inv_commit {txn : TxnID} {ts : Timestamp} (h : Inv s)
    (hmay : (s.txns txn).mayCommit ts = true) :
    Inv { s with txns := update s.txns txn { s.txns txn with committed := some ts } } := { h with
  pinned := by
    intro u hu
    have hdeadline : (update s.txns txn { s.txns txn with committed := some ts } u.txn).deadline =
        (s.txns u.txn).deadline := by
      by_cases heq : u.txn = txn
      · rw [heq, update_self]
      · rw [update_of_ne heq]
    rw [hdeadline]
    exact h.pinned u hu
  committed := by
    intro u hu ts' hts
    dsimp only at hts
    by_cases heq : u.txn = txn
    · rw [heq, update_self] at hts
      cases hts
      obtain ⟨hne, hle⟩ := h.pinned u hu
      rw [heq] at hne hle
      unfold TxnState.mayCommit at hmay
      rw [hne, Bool.false_or] at hmay
      exact le_trans hmay hle
    · rw [update_of_ne heq] at hts
      exact h.committed u hu ts' hts }

end Txns

section Lookup
variable {s s' : State} {g : Gateway} {txn : TxnID} {key : CacheKey} {c : CachedDesc}

theorem inv_take (h : Inv s) (hc : (s.gateways g).cache.lookup key = some c)
    (hbusy : (s.gateways g).busy key c.desc.id = false) (hopen : (s.txns txn).committed = none) :
    Inv (s.take g txn key c) := by
  have hfree := free_of_not_busy hbusy
  have hcache : (s.gateways g).view.cache key = some c := hc
  have hpos : 0 < c.expiration := ((h.gateway g).entry_dated key c hcache).2.1
  have hview : ({ s.gateways g with
      cache := (s.gateways g).cache.insert key { c with handedOut := true } } : GatewayState).view =
      (s.gateways g).view.mark key c := view_insertCache _ key _
  have htook := took_cons_self s.uses ⟨txn, g, c.desc, c.expiration⟩
  have hpin := inv_pin h txn c.expiration
  constructor
  case gateway =>
    refine (forall_update_iff s.gateways fun g' gs =>
      GatewayInv s.versions (s.lease g') gs.view (Took (_ :: s.uses) g')).mpr ⟨?_, fun g' hne => ?_⟩
    · rw [hview, htook]
      exact (h.gateway g).take hcache hfree
    · rw [took_cons_of_ne s.uses hne]
      exact h.gateway g'
  case version => exact h.version
  case drain =>
    intro d hd
    refine (forall_update_iff s.gateways fun g' gs =>
      DrainInv d.phase d.desc g' gs.view (Took (_ :: s.uses) g')).mpr ⟨?_, fun g' hne => ?_⟩
    · rw [hview, htook]
      exact (h.drain d hd g).take hcache hfree
    · rw [took_cons_of_ne s.uses hne]
      exact h.drain d hd g'
  case pinned =>
    refine List.forall_mem_cons.mpr ⟨?_, hpin.pinned⟩
    dsimp only [take]
    rw [update_self]
    exact pinDeadline_self _ hpos
  case committed =>
    intro u hu ts hts
    rcases List.mem_cons.mp hu with rfl | hu
    · dsimp only [take] at hts
      simp [update_self, pinDeadline_committed, hopen] at hts
    · exact hpin.committed u hu ts hts

theorem inv_lookupIn (h : Inv s) (hg : orderly s (.lookupIn g txn key) = true)
    (hs : s.lookupIn g txn key = some s') : Inv s' := by
  unfold lookupIn at hs
  simp only at hs
  split at hs
  · cases hs
  rename_i c hc
  split_ifs at hs with hcond
  cases hs
  simp only [orderly, hc, Option.all_some, Bool.not_eq_true'] at hg
  exact inv_take h hc hg hcond.2

end Lookup

section Install
variable {s s' : State} {g : Gateway} {session : SessionID}

theorem inv_afterInstall (h : Inv s) (hle : p.desc.version ≤ s.versions p.desc.id) :
    Inv (s.afterInstall g p) := by
  unfold afterInstall
  split
  · exact inv_pin h _ _
  · exact h
  · exact { h with
      version := List.forall_mem_append.mpr ⟨h.version, List.forall_mem_singleton.mpr hle⟩
      drain := List.forall_mem_append.mpr
        ⟨h.drain, List.forall_mem_singleton.mpr fun _ => drainInv_polling⟩ }

theorem inv_installed (h : Inv s)
    (ha : (s.gateways g).acquiring.lookup session = some (.leasing p true))
    (hquiet : ∀ e, (s.gateways g).view.cache p.key = some e →
      e.desc.id = p.desc.id ∨ e.settled (s.gateways g).now = true) :
    Inv (s.setGateway g { s.gateways g with
      cache := (s.gateways g).cache.insert p.key p.entry
      acquiring := (s.gateways g).acquiring.erase session }) := by
  have hp : (s.gateways g).view.leasing session = some (p, true) := leasing_of_acquiring ha
  have hview := view_insertCache ({ s.gateways g with
    acquiring := (s.gateways g).acquiring.erase session }) p.key p.entry
  rw [view_eraseAcquiring] at hview
  exact h.setGateway_same hview ((h.gateway g).install hp hquiet) fun _ _ hd => hd.install hp

theorem inv_dropped (h : Inv s)
    (ha : (s.gateways g).acquiring.lookup session = some (.absent key purpose)) (hset :
      (s.gateways g).settled (fun k => k == key) = true) : Inv (s.setGateway g { s.gateways g with
      cache := (s.gateways g).cache.erase key
      acquiring := (s.gateways g).acquiring.insert session (.releasing id) }) := by
  have hview := view_eraseCache ({ s.gateways g with
    acquiring := (s.gateways g).acquiring.insert session (.releasing id) }) key
  rw [view_insertAcquiring, show (releasing id).pending = none from rfl,
    view_inert (leasing_of_acquiring ha)] at hview
  exact h.setGateway_same hview ((h.gateway g).drop (settled_entry hset)) fun _ _ hd => hd.drop

theorem inv_install (h : Inv s) (hg : orderly s (.install g session) = true)
    (hs : s.install g session = some s') : Inv s' := by
  unfold install at hs
  simp only at hs
  split at hs
  · rename_i p ha
    cases hs
    simp only [orderly, ha] at hg
    refine inv_afterInstall (inv_installed h ha ?_) ?_
    · intro e he
      rw [show (s.gateways g).cache.lookup p.key = some e from he] at hg
      simpa only [Option.all_some, Bool.or_eq_true, beq_iff_eq] using hg
    · exact ((h.gateway g).pending_dated session p true (leasing_of_acquiring ha)).1
  · rename_i key purpose ha
    simp only [orderly, ha] at hg
    have hnone : ∀ p, (s.gateways g).view.leasing session = some (p, true) →
        (s.gateways g).view.cache p.key = none := by
      intro p hp
      rw [leasing_of_acquiring ha] at hp
      cases hp
    split at hs <;> cases hs
    · exact inv_erase h hnone
    · exact inv_erase h hnone
    · exact inv_dropped h ha hg
  · cases hs

end Install

section Drains
variable {s s' : State} {i : Nat}

theorem inv_setDrain {d d' : Drain} (h : Inv s) (hd : s.drains[i]? = some d)
    (hdesc : d'.desc = d.desc) (hinv : ∀ g, DrainInv d'.phase d.desc g (s.gateways g).view
      (Took s.uses g)) : Inv (s.setDrain i d') := { h with
  version := by
    intro x hx
    rcases List.mem_or_eq_of_mem_set hx with hx | rfl
    · exact h.version x hx
    · rw [hdesc]
      exact h.version d (List.mem_of_getElem? hd)
  drain := by
    intro x hx
    rcases List.mem_or_eq_of_mem_set hx with hx | rfl
    · exact h.drain x hx
    · rw [hdesc]
      exact hinv }

theorem mem_rows {g : Gateway} {l : DescLease} (hl : s.lease g id = some l) :
    (g, l) ∈ s.rows id := by
  refine List.mem_map.mpr ⟨⟨(id, g), l⟩, List.mem_filter.mpr ⟨mem_lookup_iff.mp hl, ?_⟩, rfl⟩
  exact beq_self_eq_true id

theorem inv_scan (h : Inv s) (hs : s.scan i = some s') : Inv s' := by
  unfold scan at hs
  split at hs
  · cases hs
  rename_i d hd
  split at hs
  · cases hs
    exact inv_setDrain h hd rfl fun g => (h.gateway g).scan fun l hl => mem_rows hl
  · cases hs

theorem inv_check (h : Inv s) (hg : orderly s (.check i) = true) (hs : s.check i = some s') :
    Inv s' := by
  unfold check at hs
  split at hs
  · cases hs
  rename_i d hd
  split at hs
  · rename_i rows hphase
    simp only at hs
    split at hs
    · rename_i hadopted
      cases hs
      refine inv_setDrain h hd rfl fun g => ?_
      have hdrain := h.drain d (List.mem_of_getElem? hd) g
      rw [hphase] at hdrain
      refine hdrain.check (all_eq_true.mp hadopted) ?_
      rintro desc exp ⟨u, hu, rfl, rfl, _⟩ hid hver
      simp only [orderly, hd, Option.all_some, all_eq_true] at hg
      have hu := hg u hu
      simp only [Bool.or_eq_true, bne_iff_ne, hid, ne_eq, not_true_eq_false, hver, decide_true,
        Bool.not_true, Bool.false_eq_true, decide_eq_true_eq, false_or] at hu
      exact hu
    · cases hs
      exact inv_setDrain h hd rfl fun g => drainInv_polling
  · cases hs

end Drains

section Schema
variable {s s' : State} {id : TableID}

theorem inv_update (h : Inv s) : Inv (s.update id (s.versions id)) := by
  have hle : ∀ i, s.versions i ≤ (s.update id (s.versions id)).versions i := by
    intro i
    change _ ≤ update s.versions id (s.versions id + 1) i
    by_cases heq : i = id
    · subst heq
      rw [update_self]
      omega
    · rw [update_of_ne heq]
  exact { h with
    gateway := fun g => (h.gateway g).later le_rfl hle
    version := fun d hd => le_trans (h.version d hd) (hle _) }

theorem inv_renameTable {base : Nat} {old new : CacheKey} (h : Inv s) (hbase : base = s.versions id)
    (hs : s.renameTable id base old new = some s') : Inv s' := by
  unfold renameTable at hs
  split at hs
  · cases hs
  cases hs
  subst hbase
  have hnames : Inv { s with names := update (update s.names old none) new (some id) } :=
    { h with }
  exact inv_update hnames

end Schema

variable {s : State}

theorem inv_step {s' : State} {a : Action} (h : Inv s) (hg : orderly s a = true)
    (hs : step s a = some s') :
    Inv s' := by
  cases a with
  | tick g now =>
    simp only [step] at hs
    split_ifs at hs with hle
    cases hs
    exact inv_tick h hle
  | lookupIn g txn key => exact inv_lookupIn h hg hs
  | acquireLease g session key purpose => exact inv_acquireLease h hg hs
  | commitLease g session => exact inv_commitLease h hs
  | install g session => exact inv_install h hg hs
  | release g session => exact inv_release h hg hs
  | fail g session => exact inv_fail h hg hs
  | invalidate g bare =>
    cases hs
    exact inv_invalidate h hg
  | update id base =>
    cases hs
    rw [beq_iff_eq.mp hg]
    exact inv_update h
  | renameTable id base old new => exact inv_renameTable h (beq_iff_eq.mp hg) hs
  | scan i => exact inv_scan h hs
  | check i => exact inv_check h hg hs
  | commit txn ts =>
    simp only [step] at hs
    split_ifs at hs with hmay
    cases hs
    exact inv_commit h hmay.2

theorem Inv.drained (h : Inv s) : Drained s := by
  intro d hd t ht u hu hid hver ts hts
  have hdrain := (h.drain d hd u.gateway).took u.desc u.expiration ⟨u, hu, rfl, rfl, rfl⟩ hid hver
  rw [ht] at hdrain
  have hle : u.expiration ≤ t.wallTime := by
    rcases hdrain with hbound | ⟨hopen, _⟩
    · exact hbound
    · cases hopen
  refine le_trans (h.committed u hu ts hts) (Timestamp.le_iff.mpr ?_)
  rcases Nat.lt_or_eq_of_le hle with hlt | heq
  · exact .inl hlt
  · exact .inr ⟨heq, Nat.zero_le _⟩

/-- In every run of orderly steps, a drain that has returned is behind no commit with an
older version. -/
theorem drain_sound {names : CacheKey → Option TableID} {versions : TableID → Nat}
    {gateways : Gateway → Timestamp × { ttl : Nat // 0 < ttl }} {actions : List Action} {s : State}
    (hguard : Runs.Guarded step (fun s a => orderly s a = true)
      (start names versions gateways) actions)
    (hrun : run step (start names versions gateways) actions = some s) : Drained s :=
  (invariant_of_run (fun _ _ _ h hg hs => inv_step h hg hs)
    (inv_start names versions gateways) hguard hrun).drained

section Examples

/-- A transaction with an older version has committed after a drain returned. -/
private def late (s : State) : Bool :=
  s.drains.any fun d => s.uses.any fun u =>
    u.desc.id == d.desc.id && decide (u.desc.version < d.desc.version) &&
      match d.phase, (s.txns u.txn).committed with
      | .returned t, some ts => decide (t < ts)
      | _, _ => false

private theorem not_drained_of_late (h : late s = true) : ¬ Drained s := by
  intro hdrained
  obtain ⟨d, hd, h⟩ := any_eq_true.mp h
  obtain ⟨u, hu, h⟩ := any_eq_true.mp h
  simp only [Bool.and_eq_true, beq_iff_eq, decide_eq_true_eq] at h
  obtain ⟨⟨hid, hver⟩, h⟩ := h
  split at h
  · rename_i t ts hphase hts
    exact absurd (hdrained d hd t hphase u hu hid hver ts hts) (not_le.mpr (of_decide_eq_true h))
  · cases h

private theorem late_of_run {actions : List Action}
    (h : ∃ s', run step s actions = some s' ∧ late s' = true) :
    ∃ s', run step s actions = some s' ∧ ¬ Drained s' :=
  h.imp fun _ h => h.imp_right not_drained_of_late

/-- Table 1 is named t; every clock shows 100 and every lease lasts 10. -/
private def oneTable : State :=
  start (fun k => if k = ⟨0, "t"⟩ then some 1 else none) (fun _ => 1) fun _ =>
    (⟨100, 0⟩, ⟨10, by decide⟩)

private def acquire (g : Gateway) (purpose : Purpose) : List Action :=
  [.acquireLease g 0 ⟨0, "t"⟩ purpose, .commitLease g 0, .install g 0]

private def poll : List Action := [.scan 0, .check 0]

private def waitsForStatement : List Action :=
  acquire 1 .renew ++ [.lookupIn 1 7 ⟨0, "t"⟩, .update 1 1] ++ acquire 0 .finishDDL ++ poll ++
    acquire 1 .renew ++ poll ++ [.commit 7 ⟨105, 0⟩, .tick 1 ⟨110, 0⟩, .tick 0 ⟨110, 3⟩] ++ poll

private def updateDropsEntry : List Action :=
  acquire 0 .renew ++ [.lookupIn 0 7 ⟨0, "t"⟩, .invalidate 0 "t", .update 1 1] ++
    acquire 0 .finishDDL ++
    poll ++ [.commit 7 ⟨105, 0⟩]

private def takenWhileRenewing : List Action :=
  acquire 1 .renew ++ [.update 1 1, .acquireLease 1 0 ⟨0, "t"⟩ .renew, .commitLease 1 0,
    .lookupIn 1 7 ⟨0, "t"⟩, .install 1 0] ++ acquire 0 .finishDDL ++ poll ++ [.commit 7 ⟨105, 0⟩]

private def nameGone : List Action :=
  acquire 1 .renew ++ [.lookupIn 1 7 ⟨0, "t"⟩, .renameTable 1 1 ⟨0, "t"⟩ ⟨0, "u"⟩,
    .acquireLease 1 0 ⟨0, "t"⟩ .renew, .install 1 0, .release 1 0,
    .acquireLease 0 0 ⟨0, "u"⟩ .finishDDL, .commitLease 0 0, .install 0 0] ++ poll ++
    [.commit 7 ⟨105, 0⟩]

private def slowClock : List Action :=
  acquire 1 .renew ++ [.lookupIn 1 7 ⟨0, "t"⟩, .update 1 1] ++ acquire 0 .finishDDL ++
    .tick 1 ⟨110, 0⟩ :: acquire 1 .renew ++ poll ++ [.commit 7 ⟨105, 0⟩]

private def returnedAt (t : Timestamp) : Phase → Bool
  | .returned t' => t' == t
  | _ => false

private theorem phase_of_returnedAt {t : Timestamp} {p : Phase} (h : returnedAt t p = true) :
    p = .returned t := by
  cases p with
  | returned t' => rw [eq_of_beq h]
  | polling | scanned rows => cases h

theorem drain_sound_waiting : ∃ s, run step oneTable waitsForStatement = some s ∧
      (∃ d ∈ s.drains, d.phase = .returned ⟨110, 3⟩) ∧
      (s.txns 7).committed = some ⟨105, 0⟩ ∧ Drained s := by
  refine exists_of_run (fun s => (∃ d ∈ s.drains, returnedAt ⟨110, 3⟩ d.phase = true) ∧
    (s.txns 7).committed = some ⟨105, 0⟩) (by decide +kernel) ?_
  rintro s hrun ⟨⟨d, hd, h⟩, hcommitted⟩
  exact ⟨⟨d, hd, phase_of_returnedAt h⟩, hcommitted, drain_sound (by decide +kernel) hrun⟩

/-- `Update` drops the entry that accounts for a statement of its own gateway, and the
drain returns before that statement commits. So it does when a statement takes the old
entry while its replacement is on the way, when a renewal finds the table renamed and
deletes its lease, and when a gateway forgets an expiration that the clock of the drain
has not reached. -/
theorem update_forgets_statement :
    (∃ s, run step oneTable updateDropsEntry = some s ∧ ¬ Drained s) ∧
      (∃ s, run step oneTable takenWhileRenewing = some s ∧ ¬ Drained s) ∧
      (∃ s, run step oneTable nameGone = some s ∧ ¬ Drained s) ∧
      ∃ s, run step oneTable slowClock = some s ∧ ¬ Drained s :=
  ⟨late_of_run (by decide +kernel), late_of_run (by decide +kernel),
    late_of_run (by decide +kernel), late_of_run (by decide +kernel)⟩

end Examples

end Datax.Catalog
