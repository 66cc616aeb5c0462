import Datax.Sql.DescLease

/-!
# What a gateway's cache and lease records account for

A descriptor taken from a gateway's cache is accounted for by a cache entry, which says until when
statements of its version or older ones may commit, and by the lease record, which tells the drains.
An acquisition in flight carries the account from the entry it found to what it writes, as long as
nobody takes the old entry meanwhile.
-/

namespace Datax.Catalog

open Bool Function

/-- The entry says that a statement with this descriptor may commit until `exp`. -/
def CachedDesc.Accounts (e : CachedDesc) (desc : TableDescriptor) (exp : Nat) : Prop :=
  e.desc.id = desc.id ∧
    ((desc.version = e.desc.version ∧
      (e.handedOut = true ∧ exp ≤ e.expiration ∨ exp ≤ e.handedOutExpiration)) ∨
      (desc.version < e.desc.version ∧ exp ≤ e.priorExpiration))

/-- Nobody who took the entry, or one before it, can still commit. -/
def CachedDesc.settled (e : CachedDesc) (now : Nat) : Bool :=
  (!e.handedOut || decide (e.expiration ≤ now)) && decide (e.handedOutExpiration ≤ now) &&
    decide (e.priorExpiration ≤ now)

variable {e : CachedDesc} {desc : TableDescriptor} {exp now : Nat}

theorem CachedDesc.Accounts.le_of_settled (h : e.Accounts desc exp) (hs : e.settled now = true) :
    exp ≤ now := by
  simp only [settled, and_eq_true, or_eq_true, not_eq_true', decide_eq_true_eq] at hs
  obtain ⟨⟨hexp, hout⟩, hprior⟩ := hs
  rcases h.2 with ⟨_, ⟨hmark, hle⟩ | hle⟩ | ⟨_, hle⟩
  · rcases hexp with hfalse | hexp
    · simp [hmark] at hfalse
    · omega
  · omega
  · omega

/-- A drain past this version that reads the record waits until `exp`. -/
def DescLease.Covers (l : DescLease) (version exp : Nat) : Prop :=
  exp ≤ l.expiration ∧ (l.version ≤ version ∨ exp ≤ l.priorExpiration)

variable {version : Nat}

theorem DescLease.Covers.le_of_adopted {l : DescLease} {target : Nat} (h : l.Covers version exp)
    (hlt : version < target) (ha : l.adopted target now = true) : exp ≤ now := by
  simp only [adopted, or_eq_true, and_eq_true, decide_eq_true_eq] at ha
  obtain ⟨hexp, hver⟩ := h
  rcases ha with ha | ⟨htarget, hprior⟩
  · omega
  rcases hver with hver | hver
  · omega
  · omega

/-- The acquisition carries a statement of this version that may commit until `exp`. -/
def Pending.Carries (p : Pending) (version exp : Nat) : Prop :=
  exp ≤ p.info.expiration ∧ (version < p.desc.version ∧ exp ≤ p.info.priorExpiration ∨
      version = p.desc.version ∧ exp ≤ p.info.handedOutExpiration)

namespace Pending
variable {p : Pending} {desc : TableDescriptor} {exp : Nat}

theorem Carries.covers (h : p.Carries desc.version exp) : p.lease.Covers desc.version exp := by
  obtain ⟨hexp, hver⟩ := h
  refine ⟨hexp, ?_⟩
  rcases hver with ⟨_, hprior⟩ | ⟨heq, _⟩
  · exact .inr hprior
  · exact .inl heq.ge

theorem Carries.accounts (h : p.Carries desc.version exp) (hid : desc.id = p.desc.id) :
    p.entry.Accounts desc exp := by
  refine ⟨hid.symm, ?_⟩
  rcases h.2 with hprior | ⟨heq, hout⟩
  · exact .inr hprior
  · exact .inl ⟨heq, .inr hout⟩

end Pending

theorem carryOver_accounts (h : e.Accounts desc exp) (hle : e.desc.version ≤ version) : exp ≤ now ∨
      (desc.version < version ∧ exp ≤ (carryOver (some e) version now).1 ∨
        desc.version = version ∧ exp ≤ (carryOver (some e) version now).2) := by
  rcases Nat.lt_or_ge now exp with hnow | hnow
  · refine .inr ?_
    have hout : exp ≤ e.handedOutExpiration ∨ (e.handedOut = true ∧ exp ≤ e.expiration) →
        exp ≤ if e.handedOut = true ∧ e.handedOutExpiration < e.expiration then e.expiration
          else e.handedOutExpiration := by
      intro hor
      split
      · omega
      rcases hor with hor | ⟨hmark, hor⟩
      · exact hor
      rename_i hn
      have : ¬ e.handedOutExpiration < e.expiration := fun hlt => hn ⟨hmark, hlt⟩
      omega
    simp only [carryOver]
    rcases h.2 with ⟨heq, hor⟩ | ⟨hlt, hprior⟩
    · have hexp := hout hor.symm
      rcases Nat.lt_or_ge e.desc.version version with hver | hver
      · refine .inl ⟨by omega, ?_⟩
        rw [if_pos hver, if_neg (by omega)]
        omega
      · refine .inr ⟨by omega, ?_⟩
        rw [if_neg (by omega : ¬ e.desc.version < version), if_neg (by omega)]
        exact hexp
    · refine .inl ⟨by omega, ?_⟩
      rcases Nat.lt_or_ge e.desc.version version with hver | hver
      · rw [if_pos hver, if_neg (by omega)]
        omega
      · rw [if_neg (by omega : ¬ e.desc.version < version), if_neg (by omega)]
        exact hprior
  · exact .inl hnow

structure View where
  now : Nat
  ttl : Nat
  cache : CacheKey → Option CachedDesc
  leasing : SessionID → Option (Pending × Bool)

/-- A lease for the key is written and its entry not yet in the cache. -/
def View.Replacing (v : View) (k : CacheKey) : Prop :=
  ∃ session p, v.leasing session = some (p, true) ∧ p.key = k

/-- A version that exists, leased until some time within the lease period. -/
def Dated (versions : TableID → Nat) (v : View) (desc : TableDescriptor) (exp : Nat) : Prop :=
  desc.version ≤ versions desc.id ∧ 0 < exp ∧ exp ≤ v.now + v.ttl

/-- The accounts of one gateway: `lease` are its records in the store, and `took` says
which descriptors statements took from its cache, and until when they may commit. -/
structure GatewayInv (versions : TableID → Nat) (lease : TableID → Option DescLease) (v : View)
    (took : TableDescriptor → Nat → Prop) : Prop where
  took_dated : ∀ desc exp, took desc exp → Dated versions v desc exp
  entry_dated : ∀ k e, v.cache k = some e → Dated versions v e.desc e.expiration
  pending_dated : ∀ session p b, v.leasing session = some (p, b) →
    Dated versions v p.desc p.info.expiration
  took_cached : ∀ desc exp, took desc exp →
    exp ≤ v.now ∨ ∃ k e, v.cache k = some e ∧ e.Accounts desc exp
  took_leased : ∀ desc exp, took desc exp →
    exp ≤ v.now ∨ ∃ l, lease desc.id = some l ∧ l.Covers desc.version exp
  entry_leased : ∀ k e, v.cache k = some e →
    v.Replacing k ∨ ∃ l, lease e.desc.id = some l ∧ l.version ≤ e.desc.version ∧
      e.expiration ≤ l.expiration
  pending_took : ∀ session p b, v.leasing session = some (p, b) →
    ∀ desc exp, took desc exp → desc.id = p.desc.id → exp ≤ v.now ∨ p.Carries desc.version exp
  pending_written : ∀ session p, v.leasing session = some (p, true) → lease p.desc.id = some p.lease
  pending_alone : ∀ session p b session' p' b', v.leasing session = some (p, b) →
    v.leasing session' = some (p', b') → session ≠ session' →
      p.key ≠ p'.key ∧ p.desc.id ≠ p'.desc.id
  pending_only : ∀ session p b, v.leasing session = some (p, b) →
    ∀ k e, v.cache k = some e → e.desc.id = p.desc.id → k = p.key

/-- What a drain knows to hold of every descriptor that may still be used. -/
def Phase.Bounds (phase : Phase) (g : Gateway) (version exp : Nat) : Prop :=
  match phase with
  | .polling => True
  | .scanned rows => ∃ l, (g, l) ∈ rows ∧ l.Covers version exp
  | .returned t => exp ≤ t.wallTime

def Phase.isOpen (phase : Phase) : Bool :=
  match phase with
  | .returned _ => false
  | _ => true

/-- A drain has every descriptor below its version in view, whether a statement took it,
or the cache holds it, or a written lease is about to put it there. -/
structure DrainInv (phase : Phase) (target : TableDescriptor) (g : Gateway) (v : View)
    (took : TableDescriptor → Nat → Prop) : Prop where
  took : ∀ desc exp, took desc exp → desc.id = target.id → desc.version < target.version →
    phase.Bounds g desc.version exp ∨ (phase.isOpen = true ∧ exp ≤ v.now)
  entry : ∀ k e, v.cache k = some e → e.desc.id = target.id → e.desc.version < target.version →
    v.Replacing k ∨ phase.Bounds g e.desc.version e.expiration
  written : ∀ session p, v.leasing session = some (p, true) → p.desc.id = target.id →
    p.desc.version < target.version → phase.Bounds g p.desc.version p.info.expiration

variable {x : Option (Pending × Bool)}

variable {session' : SessionID} {rows : List (Gateway × DescLease)}

theorem update_cases {α β : Type} [DecidableEq α] {f : α → β} {a x : α} {b y : β}
    (h : update f a b x = y) :
    x = a ∧ b = y ∨ x ≠ a ∧ f x = y := by
  by_cases heq : x = a
  · subst heq
    exact .inl ⟨rfl, (update_self ..).symm.trans h⟩
  · exact .inr ⟨heq, (update_of_ne heq ..).symm.trans h⟩

section Steps
variable {versions : TableID → Nat} {lease : TableID → Option DescLease} {v : View}
  {took : TableDescriptor → Nat → Prop} {phase : Phase} {target : TableDescriptor} {g : Gateway}

section Tick
variable {now : Nat} (hle : v.now ≤ now)
include hle

theorem GatewayInv.later {versions' : TableID → Nat} (h : GatewayInv versions lease v took)
    (hver : ∀ i, versions i ≤ versions' i) :
    GatewayInv versions' lease { v with now := now } took := by
  have hdated : ∀ desc exp, Dated versions v desc exp →
      Dated versions' { v with now := now } desc exp := by
    rintro desc exp ⟨hold, hpos, hexp⟩
    exact ⟨le_trans hold (hver _), hpos, le_trans hexp (Nat.add_le_add_right hle _)⟩
  exact { h with
    took_dated := fun desc exp ht => hdated _ _ (h.took_dated desc exp ht)
    entry_dated := fun k e he => hdated _ _ (h.entry_dated k e he)
    pending_dated := fun session p b hp => hdated _ _ (h.pending_dated session p b hp)
    took_cached :=
      fun desc exp ht => (h.took_cached desc exp ht).imp_left fun hexp => le_trans hexp hle
    took_leased :=
      fun desc exp ht => (h.took_leased desc exp ht).imp_left fun hexp => le_trans hexp hle
    pending_took := fun session p b hp desc exp ht hid =>
      (h.pending_took session p b hp desc exp ht hid).imp_left fun hexp => le_trans hexp hle }

theorem DrainInv.tick (h : DrainInv phase target g v took) :
    DrainInv phase target g { v with now := now } took :=
  { h with
    took := fun desc exp ht hid hver =>
      (h.took desc exp ht hid hver).imp_right fun hopen => ⟨hopen.1, le_trans hopen.2 hle⟩ }

end Tick

variable {k : CacheKey}

section Take
variable {key : CacheKey} {c : CachedDesc} (hc : v.cache key = some c)
variable (hfree : ∀ session p b, v.leasing session = some (p, b) →
  p.key ≠ key ∧ p.desc.id ≠ c.desc.id)

def View.mark (v : View) (key : CacheKey) (c : CachedDesc) : View :=
  { v with cache := update v.cache key (some { c with handedOut := true }) }

include hc in
theorem View.cache_mark (he : (v.mark key c).cache k = some e) :
    ∃ e', v.cache k = some e' ∧ e.desc = e'.desc ∧ e.expiration = e'.expiration := by
  rcases update_cases he with ⟨rfl, heq⟩ | ⟨_, he⟩
  · cases heq
    exact ⟨c, hc, rfl, rfl⟩
  · exact ⟨e, he, rfl, rfl⟩

include hc in
theorem View.accounts_mark (h : ∃ k e, v.cache k = some e ∧ e.Accounts desc exp) :
    ∃ k e, (v.mark key c).cache k = some e ∧ e.Accounts desc exp := by
  obtain ⟨k, e, he, hid, hacc⟩ := h
  by_cases heq : k = key
  · subst heq
    rw [hc] at he
    cases he
    refine ⟨k, _, update_self .., hid, ?_⟩
    rcases hacc with ⟨hver, ⟨_, hle⟩ | hle⟩ | hprior
    · exact .inl ⟨hver, .inl ⟨rfl, hle⟩⟩
    · exact .inl ⟨hver, .inr hle⟩
    · exact .inr hprior
  · exact ⟨k, e, (update_of_ne heq ..).trans he, hid, hacc⟩

include hfree in
theorem View.not_replacing : ¬ v.Replacing key := by
  rintro ⟨session, p, hp, hkey⟩
  exact (hfree session p true hp).1 hkey

include hc hfree

theorem GatewayInv.take (h : GatewayInv versions lease v took) :
    GatewayInv versions lease (v.mark key c)
      (fun desc exp => desc = c.desc ∧ exp = c.expiration ∨ took desc exp) := { h with
  took_dated := by
    rintro desc exp (⟨rfl, rfl⟩ | ht)
    · exact h.entry_dated key c hc
    · exact h.took_dated desc exp ht
  entry_dated := by
    intro k e he
    obtain ⟨e', he', hdesc, hexp⟩ := View.cache_mark hc he
    rw [hdesc, hexp]
    exact h.entry_dated k e' he'
  took_cached := by
    rintro desc exp (⟨rfl, rfl⟩ | ht)
    · exact .inr ⟨key, _, update_self .., rfl, .inl ⟨rfl, .inl ⟨rfl, le_refl _⟩⟩⟩
    · exact (h.took_cached desc exp ht).imp_right (View.accounts_mark hc)
  took_leased := by
    rintro desc exp (⟨rfl, rfl⟩ | ht)
    · rcases h.entry_leased key c hc with hrep | ⟨l, hl, hver, hexp⟩
      · exact absurd hrep (View.not_replacing hfree)
      · exact .inr ⟨l, hl, hexp, .inl hver⟩
    · exact h.took_leased desc exp ht
  entry_leased := by
    intro k e he
    obtain ⟨e', he', hdesc, hexp⟩ := View.cache_mark hc he
    rw [hdesc, hexp]
    exact h.entry_leased k e' he'
  pending_took := by
    rintro session p b hp desc exp (⟨rfl, rfl⟩ | ht) hid
    · exact absurd hid.symm (hfree session p b hp).2
    · exact h.pending_took session p b hp desc exp ht hid
  pending_only := by
    intro session p b hp k e he hid
    obtain ⟨e', he', hdesc, _⟩ := View.cache_mark hc he
    exact h.pending_only session p b hp k e' he' (hdesc ▸ hid) }

theorem DrainInv.take (h : DrainInv phase target g v took) : DrainInv phase target g (v.mark key c)
      (fun desc exp => desc = c.desc ∧ exp = c.expiration ∨ took desc exp) := { h with
  took := by
    rintro desc exp (⟨rfl, rfl⟩ | ht) hid hver
    · exact .inl ((h.entry key c hc hid hver).resolve_left (View.not_replacing hfree))
    · exact h.took desc exp ht hid hver
  entry := by
    intro k e he hid hver
    obtain ⟨e', he', hdesc, hexp⟩ := View.cache_mark hc he
    rw [hdesc] at hid hver ⊢
    rw [hexp]
    exact h.entry k e' he' hid hver }

end Take

section Acquire
variable {session : SessionID} {p : Pending} (hfresh : v.leasing session = none)

def View.setLeasing (v : View) (session : SessionID) (x : Option (Pending × Bool)) : View :=
  { v with leasing := update v.leasing session x }

theorem View.leasing_set {p' : Pending} {b : Bool}
    (h : (v.setLeasing session x).leasing session' = some (p', b)) :
    (session' = session ∧ x = some (p', b)) ∨
      (session' ≠ session ∧ v.leasing session' = some (p', b)) :=
  update_cases h

theorem View.replacing_set (hnot : ∀ p, v.leasing session = some (p, true) → p.key ≠ k)
    (h : v.Replacing k) :
    (v.setLeasing session x).Replacing k := by
  obtain ⟨session', p', hp', hkey⟩ := h
  refine ⟨session', p', ?_, hkey⟩
  by_cases heq : session' = session
  · subst heq
    exact absurd hkey (hnot p' hp')
  · exact (update_of_ne heq ..).trans hp'

theorem DrainInv.setLeasing (h : DrainInv phase target g v took)
    (hrep : ∀ k e, v.cache k = some e → v.Replacing k → (v.setLeasing session x).Replacing k)
    (hnew : ∀ p, x = some (p, true) → p.desc.id = target.id → target.version ≤ p.desc.version) :
    DrainInv phase target g (v.setLeasing session x) took := { h with
  entry := fun k e he hid hver => (h.entry k e he hid hver).imp_left (hrep k e he)
  written := by
    intro session' p' hp' hid hver
    rcases View.leasing_set hp' with ⟨_, hx⟩ | ⟨_, hp'⟩
    · exact absurd (hnew p' hx hid) (not_le.mpr hver)
    · exact h.written session' p' hp' hid hver }

include hfresh

theorem GatewayInv.acquire (h : GatewayInv versions lease v took)
    (hver : p.desc.version = versions p.desc.id)
    (hinfo : p.info = ⟨v.now + v.ttl, (carryOver (v.cache p.key) p.desc.version v.now).1,
      (carryOver (v.cache p.key) p.desc.version v.now).2⟩) (httl : 0 < v.ttl)
    (halone : ∀ session' p' b, v.leasing session' = some (p', b) →
      p'.key ≠ p.key ∧ p'.desc.id ≠ p.desc.id)
    (honly : ∀ k e, v.cache k = some e → e.desc.id = p.desc.id → k = p.key) :
    GatewayInv versions lease (v.setLeasing session (some (p, false))) took := by
  have hexp : p.info.expiration = v.now + v.ttl := by rw [hinfo]
  have hcarry : ∀ desc exp, took desc exp → desc.id = p.desc.id →
      exp ≤ v.now ∨ p.Carries desc.version exp := by
    intro desc exp ht hid
    rcases h.took_cached desc exp ht with hle | ⟨k, e, he, hacc⟩
    · exact .inl hle
    have hkey := honly k e he (hacc.1.trans hid)
    subst hkey
    have hle : e.desc.version ≤ p.desc.version := by
      have := (h.entry_dated _ e he).1
      rwa [hacc.1, hid, ← hver] at this
    refine (carryOver_accounts hacc hle).imp_right fun hcar => ⟨?_, ?_⟩
    · rw [hexp]
      exact (h.took_dated desc exp ht).2.2
    · rw [hinfo, he]
      exact hcar
  have hrep : ∀ k, v.Replacing k → (v.setLeasing session (some (p, false))).Replacing k :=
    fun k => View.replacing_set (by simp [hfresh])
  exact { h with
    entry_leased := fun k e he => (h.entry_leased k e he).imp_left (hrep k)
    pending_dated := by
      intro session' p' b hp'
      rcases View.leasing_set hp' with ⟨_, hx⟩ | ⟨_, hp'⟩
      · cases hx
        refine ⟨hver.le, ?_, ?_⟩
        · omega
        · exact hexp.le
      · exact h.pending_dated session' p' b hp'
    pending_took := by
      intro session' p' b hp'
      rcases View.leasing_set hp' with ⟨_, hx⟩ | ⟨_, hp'⟩
      · cases hx
        exact hcarry
      · exact h.pending_took session' p' b hp'
    pending_written := by
      intro session' p' hp'
      rcases View.leasing_set hp' with ⟨_, hx⟩ | ⟨_, hp'⟩
      · cases hx
      · exact h.pending_written session' p' hp'
    pending_alone := by
      intro s₁ p₁ b₁ s₂ p₂ b₂ h₁ h₂ hne
      rcases View.leasing_set h₁ with ⟨hs₁, hx₁⟩ | ⟨_, h₁⟩
      · cases hx₁
        rcases View.leasing_set h₂ with ⟨hs₂, _⟩ | ⟨_, h₂⟩
        · exact absurd (hs₁.trans hs₂.symm) hne
        · exact ⟨(halone s₂ p₂ b₂ h₂).1.symm, (halone s₂ p₂ b₂ h₂).2.symm⟩
      · rcases View.leasing_set h₂ with ⟨_, hx₂⟩ | ⟨_, h₂⟩
        · cases hx₂
          exact halone s₁ p₁ b₁ h₁
        · exact h.pending_alone s₁ p₁ b₁ s₂ p₂ b₂ h₁ h₂ hne
    pending_only := by
      intro session' p' b hp'
      rcases View.leasing_set hp' with ⟨_, hx⟩ | ⟨_, hp'⟩
      · cases hx
        exact honly
      · exact h.pending_only session' p' b hp' }

theorem DrainInv.acquire (h : DrainInv phase target g v took) :
    DrainInv phase target g (v.setLeasing session (some (p, false))) took :=
  h.setLeasing (fun _ _ _ => View.replacing_set (by simp [hfresh])) (by simp)

end Acquire

section Commit
variable {session : SessionID} {p : Pending} (hp : v.leasing session = some (p, false))
include hp

theorem GatewayInv.commitLease (h : GatewayInv versions lease v took) :
    GatewayInv versions (update lease p.desc.id (some p.lease))
      (v.setLeasing session (some (p, true))) took := by
  have hrep : ∀ k, v.Replacing k → (v.setLeasing session (some (p, true))).Replacing k :=
    fun k => View.replacing_set (by simp [hp])
  have hpending : ∀ session' p' b, (v.setLeasing session (some (p, true))).leasing session' =
      some (p', b) →
      ∃ b', v.leasing session' = some (p', b') := by
    intro session' p' b hp'
    rcases View.leasing_set hp' with ⟨rfl, hx⟩ | ⟨_, hp'⟩
    · cases hx
      exact ⟨false, hp⟩
    · exact ⟨b, hp'⟩
  exact { h with
    pending_dated := by
      intro session' p' b hp'
      obtain ⟨b', hp'⟩ := hpending session' p' b hp'
      exact h.pending_dated session' p' b' hp'
    took_leased := by
      intro desc exp ht
      by_cases hid : desc.id = p.desc.id
      · refine (h.pending_took session p false hp desc exp ht hid).imp_right fun hcar => ?_
        exact ⟨p.lease, by rw [hid, update_self], hcar.covers⟩
      · rw [update_of_ne hid]
        exact h.took_leased desc exp ht
    entry_leased := by
      intro k e he
      by_cases hid : e.desc.id = p.desc.id
      · refine .inl ⟨session, p, update_self .., ?_⟩
        exact (h.pending_only session p false hp k e he hid).symm
      · rw [update_of_ne hid]
        exact (h.entry_leased k e he).imp_left (hrep k)
    pending_took := by
      intro session' p' b hp'
      obtain ⟨b', hp'⟩ := hpending session' p' b hp'
      exact h.pending_took session' p' b' hp'
    pending_written := by
      intro session' p' hp'
      rcases View.leasing_set hp' with ⟨_, hx⟩ | ⟨hne, hp'⟩
      · cases hx
        rw [update_self]
      · rw [update_of_ne (h.pending_alone _ _ _ _ _ _ hp' hp hne).2]
        exact h.pending_written session' p' hp'
    pending_alone := by
      intro s₁ p₁ b₁ s₂ p₂ b₂ h₁ h₂
      obtain ⟨b₁', h₁⟩ := hpending s₁ p₁ b₁ h₁
      obtain ⟨b₂', h₂⟩ := hpending s₂ p₂ b₂ h₂
      exact h.pending_alone s₁ p₁ b₁' s₂ p₂ b₂' h₁ h₂
    pending_only := by
      intro session' p' b hp'
      obtain ⟨b', hp'⟩ := hpending session' p' b hp'
      exact h.pending_only session' p' b' hp' }

theorem DrainInv.commitLease (h : DrainInv phase target g v took)
    (hle : p.desc.id = target.id → target.version ≤ p.desc.version) :
    DrainInv phase target g (v.setLeasing session (some (p, true))) took := by
  refine h.setLeasing (fun _ _ _ => View.replacing_set (by simp [hp])) ?_
  intro p' hx
  cases hx
  exact hle

end Commit

theorem View.leasing_end {session : SessionID} {x : Pending × Bool}
    (h : (v.setLeasing session none).leasing session' = some x) :
    session' ≠ session ∧ v.leasing session' = some x := by
  rcases View.leasing_set (b := x.2) h with ⟨_, hx⟩ | h
  · cases hx
  · exact h

section Fail
variable {session : SessionID}
variable (hempty : ∀ p, v.leasing session = some (p, true) → v.cache p.key = none)
include hempty

theorem View.replacing_fail (he : v.cache k = some e) (h : v.Replacing k) :
    (v.setLeasing session none).Replacing k := by
  refine View.replacing_set ?_ h
  intro p hp hkey
  have := hempty p hp
  simp [hkey, he] at this

theorem GatewayInv.fail (h : GatewayInv versions lease v took) :
    GatewayInv versions lease (v.setLeasing session none) took :=
  { h with
    pending_dated := fun session' p b hp => h.pending_dated session' p b (View.leasing_end hp).2
    entry_leased := fun k e he => (h.entry_leased k e he).imp_left (View.replacing_fail hempty he)
    pending_took := fun session' p b hp => h.pending_took session' p b (View.leasing_end hp).2
    pending_written := fun session' p hp => h.pending_written session' p (View.leasing_end hp).2
    pending_alone := fun s₁ p₁ b₁ s₂ p₂ b₂ h₁ h₂ =>
      h.pending_alone s₁ p₁ b₁ s₂ p₂ b₂ (View.leasing_end h₁).2 (View.leasing_end h₂).2
    pending_only := fun session' p b hp => h.pending_only session' p b (View.leasing_end hp).2 }

theorem DrainInv.fail (h : DrainInv phase target g v took) :
    DrainInv phase target g (v.setLeasing session none) took :=
  h.setLeasing (fun _ _ he => View.replacing_fail hempty he) (by simp)

end Fail

section Install
variable {session : SessionID} {p : Pending} (hp : v.leasing session = some (p, true))

def View.install (v : View) (session : SessionID) (p : Pending) : View :=
  { v.setLeasing session none with cache := update v.cache p.key (some p.entry) }

theorem View.cache_install (he : (v.install session p).cache k = some e) :
    (k = p.key ∧ e = p.entry) ∨ (k ≠ p.key ∧ v.cache k = some e) :=
  (update_cases he).imp_left fun h => ⟨h.1, (Option.some.inj h.2).symm⟩

include hp

theorem View.replacing_install (hne : k ≠ p.key) (h : v.Replacing k) :
    (v.install session p).Replacing k := by
  have hnot : ∀ p', v.leasing session = some (p', true) → p'.key ≠ k := by
    intro p' hp' hkey
    rw [hp] at hp'
    cases hp'
    exact hne hkey.symm
  exact View.replacing_set hnot h

theorem GatewayInv.install (h : GatewayInv versions lease v took)
    (hquiet : ∀ e, v.cache p.key = some e → e.desc.id = p.desc.id ∨ e.settled v.now = true) :
    GatewayInv versions lease (v.install session p) took := by
  exact { h with
    entry_dated := by
      intro k e he
      rcases View.cache_install he with ⟨_, rfl⟩ | ⟨_, he⟩
      · exact h.pending_dated session p true hp
      · exact h.entry_dated k e he
    pending_dated := fun session' p' b hp' => h.pending_dated session' p' b (View.leasing_end hp').2
    took_cached := by
      intro desc exp ht
      rcases h.took_cached desc exp ht with hle | ⟨k, e, he, hacc⟩
      · exact .inl hle
      by_cases hid : desc.id = p.desc.id
      · refine (h.pending_took session p true hp desc exp ht hid).imp_right fun hcar => ?_
        exact ⟨p.key, p.entry, update_self .., hcar.accounts hid⟩
      by_cases hkey : k = p.key
      · subst hkey
        rcases hquiet e he with hsame | hset
        · exact absurd (hacc.1.symm.trans hsame) hid
        · exact .inl (hacc.le_of_settled hset)
      · exact .inr ⟨k, e, (update_of_ne hkey ..).trans he, hacc⟩
    entry_leased := by
      intro k e he
      rcases View.cache_install he with ⟨_, rfl⟩ | ⟨hne, he⟩
      · exact .inr ⟨p.lease, h.pending_written session p hp, le_refl _, le_refl _⟩
      · exact (h.entry_leased k e he).imp_left (View.replacing_install hp hne)
    pending_took := fun session' p' b hp' => h.pending_took session' p' b (View.leasing_end hp').2
    pending_written := fun session' p' hp' => h.pending_written session' p' (View.leasing_end hp').2
    pending_alone := by
      intro s₁ p₁ b₁ s₂ p₂ b₂ h₁ h₂
      exact h.pending_alone s₁ p₁ b₁ s₂ p₂ b₂ (View.leasing_end h₁).2 (View.leasing_end h₂).2
    pending_only := by
      intro session' p' b hp' k e he hid
      obtain ⟨hne, hp'⟩ := View.leasing_end hp'
      rcases View.cache_install he with ⟨_, rfl⟩ | ⟨_, he⟩
      · exact absurd hid.symm (h.pending_alone _ _ _ _ _ _ hp' hp hne).2
      · exact h.pending_only session' p' b hp' k e he hid }

theorem DrainInv.install (h : DrainInv phase target g v took) :
    DrainInv phase target g (v.install session p) took := { h with
  entry := by
    intro k e he hid hver
    rcases View.cache_install he with ⟨_, rfl⟩ | ⟨hne, he⟩
    · exact .inr (h.written session p hp hid hver)
    · exact (h.entry k e he hid hver).imp_left (View.replacing_install hp hne)
  written := fun session' p' hp' => h.written session' p' (View.leasing_end hp').2 }

end Install

section Drop
variable {dropped : CacheKey → Bool}

def View.drop (v : View) (dropped : CacheKey → Bool) : View :=
  { v with cache := fun k => if dropped k = true then none else v.cache k }

theorem View.cache_drop (he : (v.drop dropped).cache k = some e) : v.cache k = some e := by
  simp only [drop] at he
  split_ifs at he
  exact he

theorem GatewayInv.drop (h : GatewayInv versions lease v took)
    (hsettled : ∀ k e, dropped k = true → v.cache k = some e → e.settled v.now = true) :
    GatewayInv versions lease (v.drop dropped) took :=
  { h with
    entry_dated := fun k e he => h.entry_dated k e (View.cache_drop he)
    took_cached := by
      intro desc exp ht
      rcases h.took_cached desc exp ht with hle | ⟨k, e, he, hacc⟩
      · exact .inl hle
      by_cases hk : dropped k = true
      · exact .inl (hacc.le_of_settled (hsettled k e hk he))
      · exact .inr ⟨k, e, (if_neg hk).trans he, hacc⟩
    entry_leased := fun k e he => h.entry_leased k e (View.cache_drop he)
    pending_only :=
      fun session p b hp k e he => h.pending_only session p b hp k e (View.cache_drop he) }

theorem DrainInv.drop (h : DrainInv phase target g v took) :
    DrainInv phase target g (v.drop dropped) took :=
  { h with entry := fun k e he => h.entry k e (View.cache_drop he) }

end Drop

theorem GatewayInv.release {id : TableID} (h : GatewayInv versions lease v took)
    (hentry : ∀ k e, v.cache k = some e → e.desc.id ≠ id)
    (hpending : ∀ session p b, v.leasing session = some (p, b) → p.desc.id ≠ id) :
    GatewayInv versions (update lease id none) v took :=
  { h with
    took_leased := by
      intro desc exp ht
      by_cases hid : desc.id = id
      · rcases h.took_cached desc exp ht with hle | ⟨k, e, he, hacc⟩
        · exact .inl hle
        · exact absurd (hacc.1.trans hid) (hentry k e he)
      · rw [update_of_ne hid]
        exact h.took_leased desc exp ht
    entry_leased := by
      intro k e he
      rw [update_of_ne (hentry k e he)]
      exact h.entry_leased k e he
    pending_written := by
      intro session p hp
      rw [update_of_ne (hpending session p true hp)]
      exact h.pending_written session p hp }

theorem GatewayInv.scan (h : GatewayInv versions lease v took)
    (hrows : ∀ l, lease target.id = some l → (g, l) ∈ rows) :
    DrainInv (.scanned rows) target g v took where
  took := by
    intro desc exp ht hid _
    rcases h.took_leased desc exp ht with hle | ⟨l, hl, hcov⟩
    · exact .inr ⟨rfl, hle⟩
    · exact .inl ⟨l, hrows l (hid ▸ hl), hcov⟩
  entry := by
    intro k e he hid _
    refine (h.entry_leased k e he).imp_right ?_
    rintro ⟨l, hl, hver, hexp⟩
    exact ⟨l, hrows l (hid ▸ hl), hexp, .inl hver⟩
  written := by
    intro session p hp hid _
    exact ⟨p.lease, hrows _ (hid ▸ h.pending_written session p hp), le_refl _, .inl le_rfl⟩

/-- A drain that has read only adopted records may return, unless a gateway whose
descriptors it counts as expired has a faster clock. -/
theorem DrainInv.check {t : Timestamp} (h : DrainInv (.scanned rows) target g v took)
    (hadopted : ∀ x ∈ rows, x.2.adopted target.version t.wallTime = true)
    (hclock : ∀ desc exp, took desc exp → desc.id = target.id → desc.version < target.version →
      v.now ≤ t.wallTime) : DrainInv (.returned t) target g v took where
  took := by
    intro desc exp ht hid hver
    refine .inl ?_
    rcases h.took desc exp ht hid hver with ⟨l, hl, hcov⟩ | ⟨_, hle⟩
    · exact hcov.le_of_adopted hver (hadopted _ hl)
    · exact le_trans hle (hclock desc exp ht hid hver)
  entry := by
    intro k e he hid hver
    refine (h.entry k e he hid hver).imp_right ?_
    rintro ⟨l, hl, hcov⟩
    exact hcov.le_of_adopted hver (hadopted _ hl)
  written := by
    intro session p hp hid hver
    obtain ⟨l, hl, hcov⟩ := h.written session p hp hid hver
    exact hcov.le_of_adopted hver (hadopted _ hl)

theorem drainInv_polling : DrainInv .polling target g v took where
  took := fun _ _ _ _ _ => .inl trivial
  entry := fun _ _ _ _ _ => .inr trivial
  written := fun _ _ _ _ _ => trivial

end Steps

end Datax.Catalog
