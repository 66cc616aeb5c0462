import Datax.Sql.DefaultReplay

/-!
# Statements on default privileges, over whole runs

The rules of a database after a statement, what they put on a new object, and the comparison
with the replay after every statement of a run.
-/

namespace Datax.Roles

open Option Function List Fallible Runs

/-! ### The rules after a statement -/

section Rules
variable {t : AlterDefaultPrivileges} {privs : List Priv} {rules : List DefaultPrivilege}

theorem ruleOf_alterRule (hkeys : (rules.map DefaultPrivilege.key).Nodup) (pair : String × String)
    (role : String) (kind : DefaultKind) (grantee : String) :
    ruleOf (alterRule t privs rules pair) role kind grantee =
      if (role, kind, grantee) = (pair.1, t.objectKind, pair.2)
      then ruleAfter t privs pair (ruleOf rules role kind grantee)
        else ruleOf rules role kind grantee := by
  have hnew : ∀ dp : DefaultPrivilege, (dp.granted t privs).key = dp.key := fun _ => rfl
  unfold alterRule
  by_cases hany : rules.any (DefaultPrivilege.isFor pair.1 t.objectKind pair.2) = true
  · rw [if_pos hany, ruleOf_editRule hkeys]
    by_cases hsame : (role, kind, grantee) = (pair.1, t.objectKind, pair.2)
    · cases hsame
      cases hrule : ruleOf rules pair.1 t.objectKind pair.2 with
      | none =>
        obtain ⟨dp, hdp, hfor⟩ := any_eq_true.mp hany
        exact absurd hfor (find?_eq_none.mp hrule dp hdp)
      | some dp => rfl
    · rw [if_neg hsame, if_neg hsame]
  · rw [if_neg hany]
    have hnone : ruleOf rules pair.1 t.objectKind pair.2 = none := by
      refine find?_eq_none.mpr ?_
      intro dp hdp hfor
      exact hany (any_eq_true.mpr ⟨dp, hdp, hfor⟩)
    by_cases hsame : (role, kind, grantee) = (pair.1, t.objectKind, pair.2)
    · rw [if_pos hsame]
      cases hsame
      rw [hnone]
      unfold ruleAfter
      cases t.revoke with
      | true => exact hnone
      | false =>
        simp only [Bool.false_eq_true, if_false]
        unfold ruleOf at hnone ⊢
        rw [find?_append, hnone, none_or]
        exact find?_cons_of_pos (isFor_iff.mpr (hnew _))
    · rw [if_neg hsame]
      cases t.revoke with
      | true => rfl
      | false =>
        simp only [Bool.false_eq_true, if_false]
        unfold ruleOf
        rw [find?_append, find?_cons_of_neg, find?_nil, or_none]
        intro hfor
        exact hsame ((isFor_iff.mp hfor).symm.trans (hnew _))

section
variable (h : WellKept rules) (hprivs : Canonical (privOrderFor t.objectKind.object) privs)
include h hprivs

theorem wellKept_alterRule (pair : String × String) : WellKept (alterRule t privs rules pair) := by
  unfold alterRule
  simp only
  split
  · refine ⟨h.keys.sublist (keys_editRule_sublist _ _), ?_⟩
    intro d hd
    rcases mem_editRule hd with hd | ⟨dp, hdp, hfor, haltered⟩
    · exact h.canonical d hd
    have hkind : dp.object = t.objectKind := (Prod.mk.inj (Prod.mk.inj (isFor_iff.mp hfor)).2).1
    have hobject : d.object = dp.object := (Prod.mk.inj (Prod.mk.inj (key_altered haltered)).2).1
    have hafter : ruleAfter t privs pair (some dp) = some d := haltered
    have hcanonical : Canonical _ (rulePrivs (ruleAfter t privs pair (some dp))) :=
      canonical_rulePrivs_after pair hprivs (hkind ▸ h.canonical dp hdp)
    rw [hafter] at hcanonical
    rw [hobject, hkind]
    exact hcanonical
  · rename_i hany
    split
    · exact h
    rename_i hgrant
    constructor
    · rw [map_append]
      refine List.Nodup.append h.keys (nodup_singleton _) ?_
      intro key hkey hnew
      cases mem_singleton.mp hnew
      obtain ⟨dp, hdp, hsame⟩ := mem_map.mp hkey
      exact hany (any_eq_true.mpr ⟨dp, hdp, isFor_iff.mpr hsame⟩)
    · refine forall_mem_append.mpr ⟨h.canonical, forall_mem_singleton.mpr ?_⟩
      have hcanonical : Canonical _ (rulePrivs (ruleAfter t privs pair none)) :=
        canonical_rulePrivs_after pair hprivs canonical_nil
      unfold ruleAfter at hcanonical
      rw [if_neg hgrant] at hcanonical
      exact hcanonical

theorem ruleOf_alterRules
    (pairs : List (String × String)) :
    WellKept (pairs.foldl (alterRule t privs) rules) ∧ ∀ role kind grantee,
      ruleOf (pairs.foldl (alterRule t privs) rules) role kind grantee = if kind = t.objectKind
        then (ruleAfter t privs (role, grantee))^[pairs.count (role, grantee)]
          (ruleOf rules role kind grantee)
        else ruleOf rules role kind grantee := by
  induction pairs generalizing rules with
  | nil =>
    refine ⟨h, ?_⟩
    intro role kind grantee
    split <;> rfl
  | cons pair pairs ih =>
    obtain ⟨hkept, hrules⟩ := ih (wellKept_alterRule h hprivs pair)
    refine ⟨hkept, ?_⟩
    intro role kind grantee
    rw [foldl_cons, hrules, ruleOf_alterRule h.keys]
    by_cases hkind : kind = t.objectKind
    · rw [if_pos hkind, if_pos hkind]
      by_cases hpair : pair = (role, grantee)
      · cases hpair
        rw [if_pos (by rw [hkind]), count_cons_self, iterate_succ_apply]
      have hother : ¬ (role, kind, grantee) = (pair.1, t.objectKind, pair.2) := by
        intro hsame
        obtain ⟨hrole, hrest⟩ := Prod.mk.inj hsame
        exact hpair (Prod.ext hrole.symm (Prod.mk.inj hrest).2.symm)
      rw [if_neg hother, count_cons_of_ne hpair]
    · have hother : ¬ (role, kind, grantee) = (pair.1, t.objectKind, pair.2) := by
        intro hsame
        exact hkind (Prod.mk.inj (Prod.mk.inj hsame).2).1
      rw [if_neg hkind, if_neg hkind, if_neg hother]

end

variable {owner : String} {kind : DefaultKind}

theorem entry_applyRule (gs : Grants) (dp : DefaultPrivilege) (g : String) :
    (applyRule owner kind gs dp).entry g =
      if dp.isFor (ownerOf owner) kind g then
        granting dp.privileges (privOrderFor kind.object) false false dp.grantOption (gs.entry g)
      else gs.entry g := by
  unfold applyRule
  by_cases hfor : dp.isFor (ownerOf owner) kind g = true
  · obtain ⟨hrole, hrest⟩ := Prod.mk.inj (isFor_iff.mp hfor)
    obtain ⟨hkind, hgrantee⟩ := Prod.mk.inj hrest
    rw [if_pos hfor, if_neg (by rw [hrole, hkind]; simp), entry_applyGrant, hgrantee, if_pos rfl]
  · split
    · rfl
    rename_i hmine
    obtain ⟨hkind, hrole⟩ := not_or.mp hmine
    rw [entry_applyGrant, if_neg]
    intro hg
    exact hfor (isFor_iff.mpr (Prod.ext (not_not.mp hrole) (Prod.ext (not_not.mp hkind) hg.symm)))

theorem entry_applyRules (h : WellKept rules)
    (gs : Grants) (g : String) : (rules.foldl (applyRule owner kind) gs).entry g =
      ((ruleOf rules (ownerOf owner) kind g).map fun dp =>
        granting dp.privileges (privOrderFor kind.object) false false dp.grantOption
          (gs.entry g)).getD (gs.entry g) := by
  induction rules generalizing gs with
  | nil => rfl
  | cons dp rules ih =>
    rw [foldl_cons, ih h.tail, entry_applyRule]
    unfold ruleOf
    by_cases hfor : dp.isFor (ownerOf owner) kind g = true
    · have hrest : rules.find? (DefaultPrivilege.isFor (ownerOf owner) kind g) = none :=
        ruleOf_eq_none_of_not_mem (isFor_iff.mp hfor ▸ (nodup_cons.mp h.keys).1)
      rw [if_pos hfor, find?_cons_of_pos hfor, hrest]
      rfl
    · rw [if_neg hfor, find?_cons_of_neg hfor]

theorem WellKept.canonical_ruleOf (h : WellKept rules) {role : String} {g : String}
    {dp : DefaultPrivilege} (hrule : ruleOf rules role kind g = some dp) :
    Canonical (privOrderFor kind.object) dp.privileges := by
  have hkind : dp.object = kind := (Prod.mk.inj (Prod.mk.inj (isFor_iff.mp (find?_some hrule))).2).1
  exact hkind ▸ h.canonical dp (mem_of_find?_eq_some hrule)

theorem entry_newObject (h : WellKept rules)
    (g : String) : (rules.foldl (applyRule owner kind) {}).entry g =
      ruleEntry (ruleOf rules (ownerOf owner) kind g) := by
  rw [entry_applyRules h]
  cases hrule : ruleOf rules (ownerOf owner) kind g with
  | none => rfl
  | some dp =>
    have hcanonical : Canonical (privOrderFor kind.object) (rulePrivs (some dp)) :=
      h.canonical_ruleOf hrule
    have hnew : StoredEntry (privOrderFor kind.object) (none, none) := ⟨stored_none, stored_none⟩
    refine (storedEntry_eq_iff (stored_granting hcanonical hnew false false dp.grantOption)
      (stored_ruleEntry hcanonical)).mpr ?_
    intro p
    rw [mem_granting.1, mem_granting.2, mem_ruleEntry.1, mem_ruleEntry.2]
    simp [rulePrivs, ruleOption]

end Rules

/-! ### The same statement again -/

section Again
variable {t : AlterDefaultPrivileges} {privs : List Priv} {pair : String × String}

theorem iterate_of_idempotent {α β : Type} {f : α → α} {e : α → β} {I : α → Prop}
    (hkeep : ∀ a, I a → I (f a)) (hagain : ∀ a, I a → e (f (f a)) = e (f a)) {a : α} (h : I a)
    (n : Nat) : e (f^[n + 1] a) = e (f a) := by
  induction n generalizing a with
  | zero => rfl
  | succ n ih => rw [iterate_succ_apply, ih (hkeep a h), hagain a h]

theorem ruleEntry_iterate_iff {rule : Option DefaultPrivilege}
    (hprivs : Canonical (privOrderFor t.objectKind.object) privs)
    (h : Canonical (privOrderFor t.objectKind.object) (rulePrivs rule)) (n : Nat) :
    ruleEntry ((ruleAfter t privs pair)^[n] rule) = (t.replayed privs)^[n] (ruleEntry rule) ↔
      (0 < n → Uniform t privs rule) := by
  cases n with
  | zero => exact ⟨fun _ h => absurd h (lt_irrefl 0), fun _ => rfl⟩
  | succ n =>
    have hrules : ruleEntry ((ruleAfter t privs pair)^[n + 1] rule) =
        ruleEntry (ruleAfter t privs pair rule) := by
      refine iterate_of_idempotent
        (I := fun rule => Canonical (privOrderFor t.objectKind.object) (rulePrivs rule))
        (fun _ => canonical_rulePrivs_after pair hprivs) ?_ h n
      intro rule h
      have hone := canonical_rulePrivs_after pair hprivs h
      refine (storedEntry_eq_iff (stored_ruleEntry (canonical_rulePrivs_after pair hprivs hone))
        (stored_ruleEntry hone)).mpr ?_
      intro p
      obtain ⟨hprivs, hoption⟩ := @mem_ruleEntry_after pair t privs rule p
      rw [(mem_ruleEntry_after pair (ruleAfter t privs pair rule) p).1,
        (mem_ruleEntry_after pair (ruleAfter t privs pair rule) p).2]
      rw [mem_ruleEntry.1] at hprivs ⊢
      rw [mem_ruleEntry.2] at hoption ⊢
      cases hrevoke : t.revoke <;> cases hopt :
        t.grantOption <;> simp [hrevoke, hopt] at hprivs hoption ⊢ <;> tauto
    have hreplay :
        (t.replayed privs)^[n + 1] (ruleEntry rule) = t.replayed privs (ruleEntry rule) := by
      have hkeep : ∀ e, StoredEntry _ e → StoredEntry _ (t.replayed privs e) :=
        fun e he => stored_granting hprivs he _ _ _
      refine iterate_of_idempotent (e := id) hkeep ?_ (stored_ruleEntry h) n
      intro e he
      refine (storedEntry_eq_iff (hkeep _ (hkeep e he)) (hkeep e he)).mpr ?_
      intro p
      unfold AlterDefaultPrivileges.replayed
      simp only [mem_granting]
      cases t.revoke <;> simp
    rw [hrules, hreplay, ruleEntry_after_iff hprivs h]
    exact ⟨fun h _ => h, fun h => h (Nat.succ_pos n)⟩

end Again

/-! ### Runs of statements -/

/-- A catalog, and what a replay of the statements so far gives an object of a database, an
owner and a kind. -/
structure Replaying where
  catalog : Catalog
  replay : Nat → String → DefaultKind → Grants := fun _ _ _ => {}

def replayGrant (t : AlterDefaultPrivileges) (privs : List Priv) (owner : String) (gs : Grants)
    (pair : String × String) :
    Grants :=
  if pair.1 = ownerOf owner then
    (applyGrant gs pair.2 privs (privOrderFor t.objectKind.object) t.revoke
      (t.grantOption && t.revoke) t.grantOption).1
  else gs

def replayStatement (c : Catalog) (s : Session) (t : AlterDefaultPrivileges) (dbID : Nat)
    (owner : String) (kind : DefaultKind) (gs : Grants) : Grants :=
  match c.lookupDatabase s.database, expandPrivileges t.privileges t.objectKind.object with
  | .ok db, .ok privs =>
    if dbID = db.id ∧ kind = t.objectKind then (t.pairs s).foldl (replayGrant t privs owner) gs
    else gs
  | _, _ => gs

namespace Replaying

def step (st : Replaying) (a : Session × AlterDefaultPrivileges) : Option Replaying :=
  (execAlterDefaultPrivileges st.catalog a.1 a.2).toOption.map fun c =>
    { catalog := c
      replay := fun dbID owner kind =>
        replayStatement st.catalog a.1 a.2 dbID owner kind (st.replay dbID owner kind) }

def Agrees (st : Replaying) : Prop :=
  ∀ dbID owner kind, applyDefaultPrivileges st.catalog dbID owner kind {} =
    st.replay dbID owner kind

/-- Every rule the statement names for a creator that can own objects takes the statement uniformly.
-/
def Separable (st : Replaying) (a : Session × AlterDefaultPrivileges) : Prop :=
  ∀ db privs, st.catalog.lookupDatabase a.1.database = .ok db →
    expandPrivileges a.2.privileges a.2.objectKind.object = .ok privs →
      ∀ pair ∈ a.2.pairs a.1, pair.1 ≠ "" →
        Uniform a.2 privs (ruleOf db.defaultPrivileges pair.1 a.2.objectKind pair.2)

structure Kept (st : Replaying) : Prop where
  ids : (st.catalog.databases.map Database.id).Nodup
  rules : ∀ db ∈ st.catalog.databases, WellKept db.defaultPrivileges

end Replaying

section Step
variable {c c' : Catalog} {s : Session} {t : AlterDefaultPrivileges}

theorem mem_of_lookupDatabase {name : String} {db : Database} (h : c.lookupDatabase name = .ok db)
    (hid : db.id ≠ 0) :
    db ∈ c.databases := by
  unfold Catalog.lookupDatabase at h
  split at h
  · rename_i d hd
    cases h
    exact mem_of_find?_eq_some hd
  · split_ifs at h
    cases h
    exact absurd rfl hid

theorem exec_cases (h : execAlterDefaultPrivileges c s t = .ok c') :
    ∃ privs db, expandPrivileges t.privileges t.objectKind.object = .ok privs ∧
      c.lookupDatabase s.database = .ok db ∧ db.id ≠ 0 ∧
      c' = c.updateDatabase { db with
        defaultPrivileges := (t.pairs s).foldl (alterRule t privs) db.defaultPrivileges } := by
  unfold execAlterDefaultPrivileges at h
  split at h
  · cases h
  obtain ⟨privs, hprivs, h⟩ := bind_eq_ok.mp h
  obtain ⟨_, _, h⟩ := bind_eq_ok.mp h
  obtain ⟨_, _, h⟩ := bind_eq_ok.mp h
  obtain ⟨db, hdb, h⟩ := bind_eq_ok.mp h
  split at h
  · cases h
  · rename_i hid
    exact ⟨privs, db, hprivs, hdb, hid, (Except.ok.inj h).symm⟩

theorem ownerOf_ne_empty (owner : String) : ownerOf owner ≠ "" := by
  unfold ownerOf
  split
  · decide
  · assumption

def ruleIn (c : Catalog) (dbID : Nat) (role : String) (kind : DefaultKind) (g : String) :
    Option DefaultPrivilege :=
  (c.readDatabase dbID).bind fun db => ruleOf db.defaultPrivileges role kind g

theorem entry_applyDefaultPrivileges (hrules : ∀ db ∈ c.databases, WellKept db.defaultPrivileges)
    (dbID : Nat) (owner : String) (kind : DefaultKind) (g : String) :
    (applyDefaultPrivileges c dbID owner kind {}).entry g =
      ruleEntry (ruleIn c dbID (ownerOf owner) kind g) := by
  unfold applyDefaultPrivileges ruleIn
  cases hdb : c.readDatabase dbID with
  | none => rfl
  | some db =>
    have hmem : db ∈ c.databases := by
      unfold Catalog.readDatabase at hdb
      split_ifs at hdb
      exact mem_of_find?_eq_some hdb
    exact entry_newObject (hrules db hmem) g

theorem entry_replay (t : AlterDefaultPrivileges) (privs : List Priv) (owner : String)
    (pairs : List (String × String)) (gs : Grants) (g : String) :
    (pairs.foldl (replayGrant t privs owner) gs).entry g =
      (t.replayed privs)^[pairs.count (ownerOf owner, g)] (gs.entry g) := by
  induction pairs generalizing gs with
  | nil => rfl
  | cons pair pairs ih =>
    rw [foldl_cons, ih, replayGrant]
    by_cases hpair : pair = (ownerOf owner, g)
    · cases hpair
      rw [if_pos rfl, count_cons_self, iterate_succ_apply, entry_applyGrant, if_pos rfl]
      rfl
    · rw [count_cons_of_ne hpair]
      congr 1
      split
      · rename_i howner
        rw [entry_applyGrant, if_neg fun hg => hpair (Prod.ext howner hg.symm)]
      · rfl

theorem ruleIn_updateDatabase {db : Database} {privs : List Priv}
    (hids : (c.databases.map Database.id).Nodup) (hrules :
      ∀ db ∈ c.databases, WellKept db.defaultPrivileges) (hmem : db ∈ c.databases) (hid : db.id ≠ 0)
    (hprivs : Canonical (privOrderFor t.objectKind.object) privs)
    (hc : c' = c.updateDatabase
      { db with defaultPrivileges := (t.pairs s).foldl (alterRule t privs) db.defaultPrivileges }) :
    (∀ db ∈ c'.databases, WellKept db.defaultPrivileges) ∧ ∀ dbID role kind g,
      ruleIn c' dbID role kind g =
      if dbID = db.id ∧ kind = t.objectKind
      then (ruleAfter t privs (role, g))^[(t.pairs s).count (role, g)] (ruleIn c dbID role kind g)
      else ruleIn c dbID role kind g := by
  obtain ⟨hkept, hafter⟩ := ruleOf_alterRules (hrules db hmem) hprivs (t.pairs s)
  constructor
  · intro d hd
    rw [hc] at hd
    rcases Keyed.mem_replace hd with rfl | hd
    · exact hkept
    · exact hrules d hd
  · intro dbID role kind g
    have hread : c'.readDatabase dbID = if dbID = db.id
        then some { db with
          defaultPrivileges := (t.pairs s).foldl (alterRule t privs) db.defaultPrivileges }
        else c.readDatabase dbID := by
      unfold Catalog.readDatabase
      rw [hc]
      by_cases hzero : dbID = 0
      · rw [if_pos hzero, if_pos hzero, if_neg (hzero ▸ hid.symm)]
      rw [if_neg hzero, if_neg hzero]
      have hsame : db.id = Database.id { db with
          defaultPrivileges := (t.pairs s).foldl (alterRule t privs) db.defaultPrivileges } := rfl
      exact Keyed.find?_replace hmem hsame dbID
    unfold ruleIn
    rw [hread]
    by_cases hdb : dbID = db.id
    · have hold : c.readDatabase dbID = some db := by
        unfold Catalog.readDatabase
        rw [hdb, if_neg hid]
        exact Keyed.find?_of_nodup hids hmem
      rw [if_pos hdb, hold, bind_some, bind_some, hafter]
      simp only [hdb, true_and]
    · rw [if_neg hdb, if_neg fun h => hdb h.1]

end Step

namespace Replaying
variable {st st' : Replaying} {a : Session × AlterDefaultPrivileges}

theorem kept_step (h : st.Kept) (hstep : st.step a = some st') : st'.Kept := by
  obtain ⟨c, hc, rfl⟩ := map_eq_some_iff.mp hstep
  obtain ⟨privs, db, hprivs, hdb, hid, heq⟩ := exec_cases (Fallible.ok_of_toOption hc)
  refine ⟨?_, (ruleIn_updateDatabase h.ids h.rules (mem_of_lookupDatabase hdb hid) hid
    (canonical_expand hprivs) heq).1⟩
  rw [heq]
  exact Keyed.map_replace.symm ▸ h.ids

theorem agrees_step_iff (h : st.Kept) (hagrees : st.Agrees) (hstep : st.step a = some st') :
    st'.Agrees ↔ st.Separable a := by
  have hkept := kept_step h hstep
  obtain ⟨c, hc, rfl⟩ := map_eq_some_iff.mp hstep
  obtain ⟨privs, db, hprivs, hdb, hid, heq⟩ := exec_cases (Fallible.ok_of_toOption hc)
  have hcanonical := canonical_expand hprivs
  have hmem := mem_of_lookupDatabase hdb hid
  obtain ⟨-, hafter⟩ := ruleIn_updateDatabase h.ids h.rules hmem hid hcanonical heq
  have hentry : ∀ dbID owner kind g, (st.replay dbID owner kind).entry g =
      ruleEntry (ruleIn st.catalog dbID (ownerOf owner) kind g) := by
    intro dbID owner kind g
    rw [← hagrees, entry_applyDefaultPrivileges h.rules]
  have hrule : ∀ role g, ruleIn st.catalog db.id role a.2.objectKind g =
      ruleOf db.defaultPrivileges role a.2.objectKind g := by
    intro role g
    unfold ruleIn Catalog.readDatabase
    rw [if_neg hid, Keyed.find?_of_nodup h.ids hmem, bind_some]
  -- a grantee's entries agree afterwards unless the statement is about them and not uniform
  have hone : ∀ dbID owner kind g, (applyDefaultPrivileges c dbID owner kind {}).entry g =
      (replayStatement st.catalog a.1 a.2 dbID owner kind (st.replay dbID owner kind)).entry g ↔
      (dbID = db.id ∧ kind = a.2.objectKind → (ownerOf owner, g) ∈ a.2.pairs a.1 →
        Uniform a.2 privs (ruleOf db.defaultPrivileges (ownerOf owner) a.2.objectKind g)) := by
    intro dbID owner kind g
    unfold replayStatement
    rw [entry_applyDefaultPrivileges hkept.rules, hafter, hdb, hprivs]
    simp only
    by_cases hthis : dbID = db.id ∧ kind = a.2.objectKind
    · obtain ⟨rfl, rfl⟩ := hthis
      rw [if_pos ⟨rfl, rfl⟩, if_pos ⟨rfl, rfl⟩, entry_replay, hentry, hrule,
        ruleEntry_iterate_iff hcanonical, count_pos_iff]
      · exact ⟨fun h _ => h, fun h => h ⟨rfl, rfl⟩⟩
      cases hfound : ruleOf db.defaultPrivileges (ownerOf owner) a.2.objectKind g with
      | none => exact canonical_nil
      | some dp => exact (h.rules db hmem).canonical_ruleOf hfound
    · rw [if_neg hthis, if_neg hthis, hentry]
      exact ⟨fun _ h => absurd h hthis, fun _ => rfl⟩
  constructor
  · intro hagrees' db' privs' hdb' hprivs' pair hpair hname
    cases hdb.symm.trans hdb'
    cases hprivs.symm.trans hprivs'
    have howner : ownerOf pair.1 = pair.1 := if_neg hname
    have huniform := (hone db.id pair.1 a.2.objectKind pair.2).mp
      (congrArg (Grants.entry · pair.2) (hagrees' _ _ _)) ⟨rfl, rfl⟩
    rw [howner] at huniform
    exact huniform hpair
  · intro hsep dbID owner kind
    refine Grants.ext_entry fun g => (hone dbID owner kind g).mpr ?_
    intro _ hpair
    exact hsep db privs hdb hprivs _ hpair (ownerOf_ne_empty owner)

end Replaying

/-- From a catalog without rules, every new object has what the replay of the statements gives
it, after every statement of a sequence that is accepted, if and only if no statement would set
the privileges of a rule apart. -/
theorem default_privileges_replayed_iff (c : Catalog) (hids : (c.databases.map Database.id).Nodup)
    (hempty : ∀ db ∈ c.databases, db.defaultPrivileges = [])
    (statements : List (Session × AlterDefaultPrivileges)) (st' : Replaying)
    (haccepted : run Replaying.step { catalog := c } statements = some st') :
    (∀ pre st, pre <+: statements → run Replaying.step { catalog := c } pre = some st → st.Agrees) ↔
      Runs.Guarded Replaying.step Replaying.Separable { catalog := c } statements := by
  have hrules : ∀ db ∈ c.databases, WellKept db.defaultPrivileges := by
    intro db hdb
    rw [hempty db hdb]
    exact ⟨nodup_nil, fun _ hdp => absurd hdp not_mem_nil⟩
  refine reached_iff_guarded (fun _ _ _ h => Replaying.kept_step h)
    (fun _ _ _ h => Replaying.agrees_step_iff h)
    ⟨hids, hrules⟩ ?_ haccepted
  intro dbID owner kind
  refine Grants.ext_entry fun g => ?_
  rw [entry_applyDefaultPrivileges hrules]
  unfold ruleIn
  cases hdb : c.readDatabase dbID with
  | none => rfl
  | some db =>
    unfold Catalog.readDatabase at hdb
    split_ifs at hdb
    rw [bind_some, hempty db (mem_of_find?_eq_some hdb)]
    rfl

namespace OneFlag

def catalog : Catalog :=
  { roles := { finalized := true }, databases := [{ id := 1, name := defaultDatabase }] }

def grant (p : Priv) (withOption : Bool) : Session × AlterDefaultPrivileges :=
  ({ user := rootRole, sessionUser := rootRole },
    { objectKind := .tables, privileges := [.priv p], forRoles := []
      grantees := [publicRole], revoke := false,
      grantOption := withOption })

theorem two_grants_compared : ∃ st',
    run Replaying.step { catalog := catalog } [grant .select true, grant .select false] = some st' ∧
      ((∀ pre st, pre <+: [grant .select true, grant .select false] →
      run Replaying.step { catalog := catalog } pre = some st → st.Agrees) ↔
      Runs.Guarded Replaying.step Replaying.Separable { catalog := catalog }
      [grant .select true, grant .select false]) := by
  refine exists_of_run (fun _ => True) (by decide +kernel) ?_
  exact fun st' hst' _ => default_privileges_replayed_iff catalog (by decide) (by decide) _ st' hst'

/-- SELECT with the grant option, then INSERT without it: a new table lets everyone grant INSERT. -/
theorem insert_becomes_grantable : ∃ st, run Replaying.step { catalog := catalog }
      [grant .select true, grant .insert false] = some st ∧
    (applyDefaultPrivileges st.catalog 1 rootRole .tables {}).grantOptions publicRole =
      some [.select, .insert] ∧
    (st.replay 1 rootRole .tables).grantOptions publicRole = some [.select] := by
  decide +kernel

end OneFlag

end Datax.Roles
