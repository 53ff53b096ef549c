import Etherview.StoreLease

/-! # Lease exclusion over runs

    A run is any sequence of lease calls and of the other repository calls (which
    change coverage), each with its time.  `LeaseEvent.effect` says everything an
    event can do to the lease map: drop entries, move one expiry, or add the lease
    of a granted claim.  The invariant and the fate of old tokens follow from it.

    The tokens of the claims are distinct (`DistinctTokens`) and each claim walks
    over the leases stored at that time in some order (`WalksLeases`). -/

namespace Store

open IntervalSet Transact MapUpdate List Tx Finmap

variable {B H : Type}

/-! ## Events -/

/-- The lease calls and, in between, any other call. -/
inductive LeaseOp (B H : Type) where
  | claim (chainID : String) (target : BlockRange) (owner : String) (ttl : Int)
      (token : String) (order : List BlockRange)
  | renew (lease : BackfillLease) (ttl : Int)
  | release (lease : BackfillLease)
  | complete (lease : BackfillLease)
  | call (call : Call B H)

/-- A call with the time it reads. -/
structure LeaseEvent (B H : Type) where
  now : Int
  op : LeaseOp B H

/-- The token a claim draws. -/
def LeaseOp.token : LeaseOp B H → Option String
  | .claim _ _ _ _ token _ => some token
  | _ => none

/-- The lease that an operation presents. -/
def LeaseOp.presents : LeaseOp B H → Option BackfillLease
  | .renew lease _ => some lease
  | .release lease => some lease
  | .complete lease => some lease
  | _ => none

variable [DecidableEq H] [ChainBundle B H] [ToString H]

/-- The method an event runs; a claim and a renewal return a lease. -/
def LeaseEvent.exec (deps : LeaseDeps) (event : LeaseEvent B H) :
    RepoM B H (Option BackfillLease) :=
  match event.op with
  | .claim chainID target owner ttl token order =>
    claimBackfillRange deps chainID target owner event.now ttl token order
  | .renew lease ttl => do
      let renewed ← renewBackfillRange deps lease event.now ttl
      return some renewed
  | .release lease => do
      releaseBackfillRange deps lease event.now
      return none
  | .complete lease => do
      completeBackfillRange deps lease event.now
      return none
  | .call call => do
      call.exec
      return none

/-- The chain after an event. -/
def LeaseEvent.next (deps : LeaseDeps) (s : MemoryChain B H) (event : LeaseEvent B H) :
    MemoryChain B H :=
  ((event.exec deps).run s).2

/-- The chain after the first events of a run of an empty repository. -/
def leaseState (deps : LeaseDeps) (events : List (LeaseEvent B H)) (i : Nat) : MemoryChain B H :=
  stateAt (LeaseEvent.next deps) MemoryChain.empty events i

/-- The order of a walk visits every stored lease once. -/
def Enumerates (order : List BlockRange) (leases : Map BlockRange BackfillLease) : Prop :=
  order.Nodup ∧ order.toFinset = leases.keys

/-- A claim walks over the leases stored at that time. -/
def LeaseOp.Walks (s : MemoryChain B H) : LeaseOp B H → Prop
  | .claim _ _ _ _ _ order => Enumerates order s.backfillLeases
  | _ => True

/-! ## What an event does to the leases -/

section Step

variable {s t : MemoryChain B H} {deps : LeaseDeps}

omit [ToString H] in
theorem WellFormed.setLeases (hs : WellFormed s) (leases : Map BlockRange BackfillLease) :
    WellFormed (setLeases leases s) :=
  ⟨hs.stored, hs.canonical, hs.unconfigured, hs.normalized⟩

/-- **What an event can do to the leases.** -/
inductive LeaseEffect (deps : LeaseDeps) (s t : MemoryChain B H) (event : LeaseEvent B H) : Prop
  /-- Entries are dropped or nothing happens. -/
  | dropped (h : Shrinks s.backfillLeases t.backfillLeases)
  /-- One entry gets another expiry. -/
  | renewed (k : BlockRange) (current : BackfillLease) (expiresAt : Int)
      (hk : s.backfillLeases.lookup k = some current)
      (ht : t.backfillLeases = s.backfillLeases.insert k { current with expiresAt := expiresAt })
  /-- A claim is granted. -/
  | granted (chainID owner token : String) (target : BlockRange) (ttl : Int)
      (order : List BlockRange) (lease : BackfillLease)
      (hop : event.op = .claim chainID target owner ttl token order)
      (hresult : ((event.exec deps).run s).1 = .ok (some lease))
      (hgrant : Granted s t target event.now token order lease)

/-- Every event has one of these effects, keeps the chain well-formed and keeps a
    configured start. -/
theorem LeaseEvent.effect (deps : LeaseDeps) (event : LeaseEvent B H) (hs : WellFormed s) :
    LeaseEffect deps s (event.next deps s) event ∧ WellFormed (event.next deps s)
      ∧ ∀ start, s.configuredStart = some start →
        (event.next deps s).configuredStart = some start := by
  obtain ⟨now, op⟩ := event
  have hsame : LeaseEffect deps s s ⟨now, op⟩ := .dropped fun _ _ hk => hk
  rw [LeaseEvent.next]
  rcases hrun : (LeaseEvent.exec deps ⟨now, op⟩).run s with ⟨err | result, t⟩
  · -- a failed event leaves the chain as it was
    have ht : t = s := by
      cases op with
      | claim chainID target owner ttl token order =>
        exact claimBackfillRange_atomic deps chainID target owner now ttl token order _ _ _ hrun
      | renew lease ttl =>
        exact (renewBackfillRange_atomic deps lease now ttl).andThen
          (fun _ => neverFails_pure) _ _ _ hrun
      | release lease =>
        exact (releaseBackfillRange_atomic deps lease now).andThen
          (fun _ => neverFails_pure) _ _ _ hrun
      | complete lease =>
        exact (completeBackfillRange_atomic deps lease now).andThen
          (fun _ => neverFails_pure) _ _ _ hrun
      | call call =>
        rcases hcall : call.exec.run s with ⟨err' | u, t'⟩
        · rw [LeaseEvent.exec, run_bind_of_error hcall] at hrun
          cases hrun
          exact Call.atomic hs.unconfigured hcall
        · rw [LeaseEvent.exec, run_bind_of_ok hcall] at hrun
          cases hrun
    rw [ht]
    exact ⟨hsame, hs, fun _ h => h⟩
  · cases op with
    | claim chainID target owner ttl token order =>
      rcases claimBackfillRange_ok hrun with ⟨-, left, rfl, hshrink⟩ | ⟨lease, rfl, hgrant⟩
      · exact ⟨.dropped hshrink, hs.setLeases left, fun _ h => h⟩
      · obtain ⟨left, rfl, -, -⟩ := hgrant.after
        refine ⟨.granted chainID owner token target ttl order lease rfl ?_ hgrant,
          hs.setLeases _, fun _ h => h⟩
        rw [hrun]
    | renew lease ttl =>
      obtain ⟨renewed, h, rfl⟩ := run_map_ok hrun
      obtain ⟨-, current, hlook, rfl⟩ := renewBackfillRange_ok h
      exact ⟨.renewed lease.range current (now + ttl) hlook rfl, hs.setLeases _, fun _ h => h⟩
    | release lease =>
      obtain ⟨_, h, rfl⟩ := run_map_ok hrun
      obtain ⟨-, rfl⟩ := releaseBackfillRange_ok h
      exact ⟨.dropped (shrinks_erase _ _), hs.setLeases _, fun _ h => h⟩
    | complete lease =>
      obtain ⟨_, h, rfl⟩ := run_map_ok hrun
      obtain ⟨-, -, rfl⟩ := completeBackfillRange_ok h
      exact ⟨.dropped (shrinks_erase _ _), hs.setLeases _, fun _ h => h⟩
    | call call =>
      obtain ⟨_, h, rfl⟩ := run_map_ok hrun
      have hnext : call.next s = t := by rw [Call.next, h]
      obtain ⟨hleases, -, hstart⟩ := Call.frame h
      refine ⟨.dropped ?_, hnext ▸ call.wellFormed hs, hstart⟩
      rw [hleases]
      exact fun _ _ hk => hk

variable {lease : BackfillLease}

/-- A lease stored after an event was stored before, up to its expiry, or is the
    lease the event was granted. -/
theorem LeaseEvent.lookup_cases {event : LeaseEvent B H} (hs : WellFormed s) {k : BlockRange}
    (hk : (event.next deps s).backfillLeases.lookup k = some lease) :
    (∃ before, s.backfillLeases.lookup k = some before ∧ before.token = lease.token)
      ∨ ∃ chainID owner ttl order, event.op = .claim chainID k owner ttl lease.token order := by
  cases (event.effect deps hs).1 with
  | dropped h => exact .inl ⟨lease, h k lease hk, rfl⟩
  | renewed key current expiresAt hkey hnext =>
    rw [hnext] at hk
    by_cases hk' : k = key
    · rw [hk', lookup_insert] at hk
      cases hk
      exact .inl ⟨current, by rw [hk']; exact hkey, rfl⟩
    · rw [lookup_insert_of_ne _ hk'] at hk
      exact .inl ⟨lease, hk, rfl⟩
  | granted chainID owner token target ttl order granted hop hresult hgrant =>
    obtain ⟨left, hleft, hshrink, -⟩ := hgrant.after
    rw [hleft] at hk
    have hk' : (left.insert target granted).lookup k = some lease := hk
    by_cases htarget : k = target
    · rw [htarget, lookup_insert] at hk'
      cases hk'
      refine .inr ⟨chainID, owner, ttl, order, ?_⟩
      rw [htarget, hgrant.holds]
      exact hop
    · rw [lookup_insert_of_ne _ htarget] at hk'
      exact .inl ⟨lease, hshrink k lease hk', rfl⟩

/-! ## The invariant -/

/-- Leases are filed under their range, pairwise without a common height, within
    the configured index and of bounded size. -/
structure LeaseInvariant (s : MemoryChain B H) : Prop where
  wellFormed : WellFormed s
  keyed : ∀ k lease, s.backfillLeases.lookup k = some lease → lease.range = k
  apart : ∀ k lease k' lease', s.backfillLeases.lookup k = some lease →
    s.backfillLeases.lookup k' = some lease' → k ≠ k' → ∀ n, k.Has n → ¬ k'.Has n
  within : ∀ k lease, s.backfillLeases.lookup k = some lease →
    (∃ start, s.configuredStart = some start ∧ start ≤ k.start)
      ∧ k.Proper ∧ k.stop.val - k.start.val < 256

omit [ToString H] in
theorem leaseInvariant_empty : LeaseInvariant (MemoryChain.empty : MemoryChain B H) where
  wellFormed := wellFormed_empty
  keyed := fun k lease h => by cases h
  apart := fun k lease k' lease' h => by cases h
  within := fun k lease h => by cases h

theorem not_has_of_not_overlap {a b : BlockRange} (h : rangesOverlap a b = false) {n : Uint64}
    (ha : a.Has n) : ¬ b.Has n := by
  intro hb
  have : overlap a b = true := by
    rw [overlap, Bool.and_eq_true, decide_eq_true_eq, decide_eq_true_eq]
    exact ⟨le_trans ha.1 hb.2, le_trans hb.1 ha.2⟩
  rw [rangesOverlap, this] at h
  cases h

section

variable (hinv : LeaseInvariant s)
include hinv

section

omit [ToString H]

variable {target : BlockRange} {now : Int} {token : String} {order : List BlockRange}

/-- The leases after a granted claim: the new one, and old ones apart from it. -/
theorem Granted.lookup_cases (hwalk : Enumerates order s.backfillLeases)
    (hgrant : Granted s t target now token order lease) {k : BlockRange}
    {other : BackfillLease} (hk : t.backfillLeases.lookup k = some other) :
    (k = target ∧ other = lease)
      ∨ (s.backfillLeases.lookup k = some other ∧ rangesOverlap k target = false) := by
  obtain ⟨left, rfl, hshrink, hpassed⟩ := hgrant.after
  have hk' : (left.insert target lease).lookup k = some other := hk
  by_cases htarget : k = target
  · rw [htarget, lookup_insert] at hk'
    exact .inl ⟨htarget, (Option.some.inj hk').symm⟩
  · rw [lookup_insert_of_ne _ htarget] at hk'
    have hold := hshrink k other hk'
    have hmem : k ∈ order := by
      rw [← mem_toFinset, hwalk.2, Finmap.mem_keys]
      exact mem_of_lookup_eq_some hold
    have hapart := (hpassed k hmem other hk').2
    rw [hinv.keyed k other hold] at hapart
    exact .inr ⟨hold, hapart⟩

/-- Dropping leases and moving expiries keeps the invariant. -/
theorem LeaseInvariant.of_ranges (ht : WellFormed t)
    (hstart : ∀ start, s.configuredStart = some start → t.configuredStart = some start)
    (hold : ∀ k lease, t.backfillLeases.lookup k = some lease →
      ∃ before, s.backfillLeases.lookup k = some before ∧ before.range = lease.range) :
    LeaseInvariant t where
  wellFormed := ht
  keyed := by
    intro k lease hk
    obtain ⟨before, hbefore, hrange⟩ := hold k lease hk
    rw [← hrange]
    exact hinv.keyed k before hbefore
  apart := by
    intro k lease k' lease' hk hk' hne
    obtain ⟨before, hbefore, -⟩ := hold k lease hk
    obtain ⟨before', hbefore', -⟩ := hold k' lease' hk'
    exact hinv.apart k before k' before' hbefore hbefore' hne
  within := by
    intro k lease hk
    obtain ⟨before, hbefore, -⟩ := hold k lease hk
    obtain ⟨⟨start, hconf, hle⟩, hrest⟩ := hinv.within k before hbefore
    exact ⟨⟨start, hstart start hconf, hle⟩, hrest⟩

/-- A granted lease keeps the invariant. -/
theorem LeaseInvariant.grant (hwalk : Enumerates order s.backfillLeases)
    (hgrant : Granted s t target now token order lease) (ht : WellFormed t)
    (hstart : ∀ start, s.configuredStart = some start → t.configuredStart = some start) :
    LeaseInvariant t where
  wellFormed := ht
  keyed := by
    intro k other hk
    rcases hgrant.lookup_cases hinv hwalk hk with ⟨rfl, rfl⟩ | ⟨hold, -⟩
    · exact hgrant.range
    · exact hinv.keyed k other hold
  apart := by
    intro k other k' other' hk hk' hne n hn
    rcases hgrant.lookup_cases hinv hwalk hk with ⟨rfl, -⟩ | ⟨hold, hover⟩
    · rcases hgrant.lookup_cases hinv hwalk hk' with ⟨rfl, -⟩ | ⟨-, hover'⟩
      · exact absurd rfl hne
      · exact fun hn' => not_has_of_not_overlap hover' hn' hn
    · rcases hgrant.lookup_cases hinv hwalk hk' with ⟨rfl, -⟩ | ⟨hold', -⟩
      · exact not_has_of_not_overlap hover hn
      · exact hinv.apart k other k' other' hold hold' hne n hn
  within := by
    intro k other hk
    rcases hgrant.lookup_cases hinv hwalk hk with ⟨rfl, -⟩ | ⟨hold, -⟩
    · obtain ⟨start, hconf, hle⟩ := hgrant.start
      exact ⟨⟨start, hstart start hconf, hle⟩, hgrant.proper, hgrant.size⟩
    · obtain ⟨⟨start, hconf, hle⟩, hrest⟩ := hinv.within k other hold
      exact ⟨⟨start, hstart start hconf, hle⟩, hrest⟩

end

end

section

variable (event : LeaseEvent B H)

/-- **One event** keeps the lease invariant. -/
theorem LeaseEvent.invariant (hinv : LeaseInvariant s)
    (hwalk : event.op.Walks s) : LeaseInvariant (event.next deps s) := by
  obtain ⟨heffect, ht, hstart⟩ := event.effect deps hinv.wellFormed
  cases heffect with
  | dropped h => exact hinv.of_ranges ht hstart fun k lease hk => ⟨lease, h k lease hk, rfl⟩
  | renewed key current expiresAt hkey hnext =>
    refine hinv.of_ranges ht hstart fun k lease hk => ?_
    rw [hnext] at hk
    by_cases hk' : k = key
    · rw [hk', lookup_insert] at hk
      cases hk
      exact ⟨current, by rw [hk']; exact hkey, rfl⟩
    · rw [lookup_insert_of_ne _ hk'] at hk
      exact ⟨lease, hk, rfl⟩
  | granted chainID owner token target ttl order lease hop hresult hgrant =>
    rw [hop] at hwalk
    exact hinv.grant hwalk hgrant ht hstart

/-! ## Tokens -/

/-- No stored lease carries the token. -/
def TokenGone (token : String) (s : MemoryChain B H) : Prop :=
  ∀ k lease, s.backfillLeases.lookup k = some lease → lease.token ≠ token

/-- A token that is gone stays away unless a claim draws it again. -/
theorem LeaseEvent.tokenGone {token : String} (hs : WellFormed s)
    (hgone : TokenGone token s) (hother : event.op.token ≠ some token) :
    TokenGone token (event.next deps s) := by
  intro k lease hk
  rcases LeaseEvent.lookup_cases hs hk with ⟨before, hbefore, htoken⟩ | ⟨_, _, _, _, hop⟩
  · rw [← htoken]
    exact hgone k before hbefore
  · rintro rfl
    rw [hop] at hother
    exact hother rfl

/-- An operation that presents a lost lease fails. -/
theorem LeaseEvent.presents_gone
    (hpresents : event.op.presents = some lease) (hgone : TokenGone lease.token s) :
    ((event.exec deps).run s).1.isOk = false := by
  obtain ⟨now, op⟩ := event
  have hno : ∀ now', ¬ Holds s lease now' := by
    rintro now' ⟨current, hlook, -, -, -, htoken, -⟩
    exact hgone _ current hlook htoken
  rcases hrun : (LeaseEvent.exec deps ⟨now, op⟩).run s with ⟨err | result, t⟩
  · rfl
  · cases op with
    | claim chainID target owner ttl token order => cases hpresents
    | call call => cases hpresents
    | renew presented ttl =>
      cases hpresents
      obtain ⟨_, _, h, -⟩ := run_bind_ok.mp hrun
      exact absurd (renewBackfillRange_ok h).1 (hno now)
    | release presented =>
      cases hpresents
      obtain ⟨_, _, h, -⟩ := run_bind_ok.mp hrun
      exact absurd (releaseBackfillRange_ok h).1 (hno now)
    | complete presented =>
      cases hpresents
      obtain ⟨_, _, h, -⟩ := run_bind_ok.mp hrun
      exact absurd (completeBackfillRange_ok h).1 (hno now)

end

end Step

/-! ## Runs -/

section Runs

variable {deps : LeaseDeps} {events : List (LeaseEvent B H)}

/-- Each token is drawn by one claim of the run. -/
def DistinctTokens (events : List (LeaseEvent B H)) : Prop :=
  (events.filterMap fun event => event.op.token).Nodup

variable {i j : Nat} {event : LeaseEvent B H}

omit [DecidableEq H] [ChainBundle B H] [ToString H] in
/-- Two claims of a run with the same token are the same claim. -/
theorem DistinctTokens.index (h : DistinctTokens events)
    {event' : LeaseEvent B H} {token : String} (hi : events[i]? = some event)
    (hj : events[j]? = some event') (ht : event.op.token = some token)
    (ht' : event'.op.token = some token) : i = j := by
  induction events generalizing i j with
  | nil => cases hi
  | cons first rest ih =>
    -- a token drawn by the first event is drawn by no later one
    have hlater : ∀ (m : Nat) (other : LeaseEvent B H), rest[m]? = some other →
        other.op.token = some token → first.op.token ≠ some token := by
      intro m other hm hother hfirst
      rw [DistinctTokens, filterMap_cons, hfirst] at h
      exact (nodup_cons.mp h).1 (mem_filterMap.mpr ⟨other, mem_of_getElem? hm, hother⟩)
    have hrest : DistinctTokens rest := by
      rw [DistinctTokens, filterMap_cons] at h
      cases hfirst : first.op.token with
      | none =>
        rw [hfirst] at h
        exact h
      | some drawn =>
        rw [hfirst] at h
        exact (nodup_cons.mp h).2
    cases i with
    | zero =>
      cases j with
      | zero => rfl
      | succ j =>
        cases hi
        exact absurd ht (hlater j event' hj ht')
    | succ i =>
      cases j with
      | zero =>
        cases hj
        exact absurd ht' (hlater i event hi ht)
      | succ j => rw [ih hrest hi hj]

/-- Every claim of the run walks over the leases stored at that time. -/
def WalksLeases (deps : LeaseDeps) (events : List (LeaseEvent B H)) : Prop :=
  ∀ (i : Nat) (event : LeaseEvent B H), events[i]? = some event →
    event.op.Walks (leaseState deps events i)

theorem leaseState_succ (h : events[i]? = some event) :
    leaseState deps events (i + 1) = event.next deps (leaseState deps events i) :=
  stateAt_succ _ _ events h

theorem leaseState_induction {P : Nat → MemoryChain B H → Prop}
    (hbase : P j (leaseState deps events j))
    (hstep : ∀ i event, j ≤ i → events[i]? = some event → P i (leaseState deps events i) →
      P (i + 1) (event.next deps (leaseState deps events i))) :
    ∀ i, j ≤ i → i ≤ events.length → P i (leaseState deps events i) :=
  stateAt_induction _ _ events hbase hstep

/-- **The run**: every reachable chain satisfies the lease invariant. -/
theorem leaseInvariant_run (hwalks : WalksLeases deps events)
    (hi : i ≤ events.length) : LeaseInvariant (leaseState deps events i) := by
  refine leaseState_induction (P := fun _ s => LeaseInvariant s) (j := 0) leaseInvariant_empty ?_
    i (Nat.zero_le i) hi
  intro i event _ hevent hinv
  exact event.invariant hinv (hwalks i event hevent)

/-- Where the token of a stored lease comes from: an earlier claim of its range. -/
def ClaimedBefore (events : List (LeaseEvent B H)) (i : Nat) (k : BlockRange)
    (token : String) : Prop :=
  ∃ j event chainID owner ttl order, j < i ∧ events[j]? = some event
    ∧ event.op = .claim chainID k owner ttl token order

/-- Every lease that is held was claimed before. -/
theorem claimedBefore_run (hwalks : WalksLeases deps events) (hi : i ≤ events.length) :
    ∀ k lease, (leaseState deps events i).backfillLeases.lookup k = some lease →
      ClaimedBefore events i k lease.token := by
  refine leaseState_induction (j := 0) (P := fun i s => ∀ k lease,
    s.backfillLeases.lookup k = some lease → ClaimedBefore events i k lease.token) ?_ ?_
    i (Nat.zero_le i) hi
  · intro k lease h
    cases h
  · intro i event _ hevent hclaimed k lease hk
    have hlen := (List.getElem?_eq_some_iff.mp hevent).1
    have hs := (leaseInvariant_run hwalks (le_of_lt hlen)).wellFormed
    rcases LeaseEvent.lookup_cases hs hk with ⟨before, hbefore, htoken⟩ | ⟨_, _, _, _, hop⟩
    · obtain ⟨j, event', chainID, owner, ttl, order, hj, hrest⟩ := hclaimed k before hbefore
      rw [← htoken]
      exact ⟨j, event', chainID, owner, ttl, order, Nat.lt_succ_of_lt hj, hrest⟩
    · exact ⟨i, event, _, _, _, _, Nat.lt_succ_self i, hevent, hop⟩

/-- The claim at an index of the run was granted this lease. -/
def GrantedAt (deps : LeaseDeps) (events : List (LeaseEvent B H)) (i : Nat)
    (lease : BackfillLease) : Prop :=
  ∃ event, events[i]? = some event ∧ event.op.token ≠ none
    ∧ ((event.exec deps).run (leaseState deps events i)).1 = .ok (some lease)

variable {lease : BackfillLease}

/-- A grant comes from a claim. -/
theorem GrantedAt.elim (h : GrantedAt deps events i lease) :
    ∃ event chainID target owner ttl token order, events[i]? = some event
      ∧ event.op = .claim chainID target owner ttl token order
      ∧ Granted (leaseState deps events i) (leaseState deps events (i + 1)) target event.now
        token order lease := by
  obtain ⟨⟨now, op⟩, hevent, htoken, hresult⟩ := h
  cases op with
  | claim chainID target owner ttl token order =>
    rw [leaseState_succ hevent, LeaseEvent.next]
    rcases hrun : (LeaseEvent.exec deps ⟨now, .claim chainID target owner ttl token order⟩).run
      (leaseState deps events i) with ⟨result, t⟩
    rw [hrun] at hresult
    cases hresult
    rcases claimBackfillRange_ok hrun with ⟨hnone, -⟩ | ⟨granted, hsome, hgrant⟩
    · cases hnone
    · cases hsome
      exact ⟨_, chainID, target, owner, ttl, token, order, hevent, rfl, hgrant⟩
  | renew lease ttl | release lease | complete lease | call call => exact absurd rfl htoken

section

variable (hfresh : DistinctTokens events) (hwalks : WalksLeases deps events)
include hfresh hwalks

variable {i j : Nat} {old new : BackfillLease}

/-- A range that is claimed again loses the old lease. -/
theorem tokenGone_of_reclaim (hij : i < j) (hold : GrantedAt deps events i old)
    (hnew : GrantedAt deps events j new) (hover : rangesOverlap old.range new.range = true) :
    TokenGone old.token (leaseState deps events (j + 1)) := by
  obtain ⟨event, chainID, target, owner, ttl, token, order, hevent, hop, hgrant⟩ := hold.elim
  obtain ⟨event', chainID', target', owner', ttl', token', order', hevent', hop', hgrant'⟩ :=
    hnew.elim
  rw [hgrant.range, hgrant'.range] at hover
  rw [hgrant.holds]
  have hj := (List.getElem?_eq_some_iff.mp hevent').1
  have hinv := leaseInvariant_run hwalks (le_of_lt hj)
  have hwalk := hwalks j event' hevent'
  rw [hop'] at hwalk
  intro k lease hk htoken
  rcases hgrant'.lookup_cases hinv hwalk hk with ⟨-, rfl⟩ | ⟨hbefore, hapart⟩
  · -- the new lease has a token of its own
    have hsame := hfresh.index hevent hevent' (by rw [hop]; rfl)
      (by rw [hop', ← htoken, hgrant'.holds]; rfl)
    omega
  · -- an old lease with that token has the old range, which overlaps the new one
    obtain ⟨m, event'', chainID'', owner'', ttl'', order'', -, hevent'', hop''⟩ :=
      claimedBefore_run hwalks (le_of_lt hj) k lease hbefore
    rw [htoken] at hop''
    have hsame := hfresh.index hevent hevent'' (by rw [hop]; rfl) (by rw [hop'']; rfl)
    rw [← hsame, hevent] at hevent''
    cases hevent''
    rw [hop] at hop''
    cases hop''
    rw [hover] at hapart
    cases hapart

theorem tokenGone_later {k : Nat} (hij : i < j) (hjk : j < k)
    (hk : k ≤ events.length) (hold : GrantedAt deps events i old)
    (hnew : GrantedAt deps events j new) (hover : rangesOverlap old.range new.range = true) :
    TokenGone old.token (leaseState deps events k) := by
  obtain ⟨event, chainID, target, owner, ttl, token, order, hevent, hop, hgrant⟩ := hold.elim
  refine leaseState_induction (j := j + 1) (P := fun _ s => TokenGone old.token s)
    (tokenGone_of_reclaim hfresh hwalks hij hold hnew hover) ?_ k hjk hk
  intro m event' hm hevent' hgone
  have hlen := (List.getElem?_eq_some_iff.mp hevent').1
  refine event'.tokenGone (leaseInvariant_run hwalks (le_of_lt hlen)).wellFormed hgone ?_
  intro htoken
  have hsame := hfresh.index hevent hevent' (by rw [hop, hgrant.holds]; rfl) htoken
  omega

end

/-- At every moment of a run the leases exclude each other, and a lost one is refused. -/
structure LeaseExclusion (deps : LeaseDeps) (events : List (LeaseEvent B H)) : Prop where
  /-- At every instant the leases that have not expired have disjoint ranges. -/
  disjoint : ∀ i ≤ events.length, ∀ (time : Int) (k k' : BlockRange)
    (lease lease' : BackfillLease),
    (leaseState deps events i).backfillLeases.lookup k = some lease →
    (leaseState deps events i).backfillLeases.lookup k' = some lease' →
    time < lease.expiresAt → time < lease'.expiresAt → lease ≠ lease' →
      ∀ n, lease.range.Has n → ¬ lease'.range.Has n
  /-- A leased range starts within the index and has at most 256 blocks. -/
  bounded : ∀ i ≤ events.length, ∀ (k : BlockRange) (lease : BackfillLease),
    (leaseState deps events i).backfillLeases.lookup k = some lease →
      (∃ start, (leaseState deps events i).configuredStart = some start
        ∧ start ≤ lease.range.start)
      ∧ lease.range.start.val ≤ lease.range.stop.val
      ∧ lease.range.stop.val - lease.range.start.val + 1 ≤ 256
  /-- No height of a range is covered when it is leased. -/
  uncovered : ∀ (i : Nat) (lease : BackfillLease), GrantedAt deps events i lease →
    ∀ n, lease.range.Has n → ¬ Covers (leaseState deps events i).coverage n
  /-- Renewing, releasing and completing is for the holder of a live lease, and
      touches no other lease. -/
  held : ∀ (i : Nat) (event : LeaseEvent B H) (lease : BackfillLease),
    events[i]? = some event → event.op.presents = some lease →
    ((event.exec deps).run (leaseState deps events i)).1.isOk = true →
      Holds (leaseState deps events i) lease event.now
      ∧ ∀ k, k ≠ lease.range → (leaseState deps events (i + 1)).backfillLeases.lookup k
        = (leaseState deps events i).backfillLeases.lookup k
  /-- Completing needs the whole range covered. -/
  completed : ∀ (i : Nat) (now : Int) (lease : BackfillLease),
    events[i]? = some ⟨now, .complete lease⟩ →
    ((LeaseEvent.exec deps ⟨now, .complete lease⟩).run (leaseState deps events i)).1.isOk
      = true →
      ∀ n, lease.range.Has n → Covers (leaseState deps events i).coverage n
  /-- Once an overlapping range has been claimed the old token is useless. -/
  lost : ∀ (i j k : Nat) (old new presented : BackfillLease) (event : LeaseEvent B H),
    i < j → j < k → GrantedAt deps events i old → GrantedAt deps events j new →
    rangesOverlap old.range new.range = true → events[k]? = some event →
    event.op.presents = some presented → presented.token = old.token →
      ((event.exec deps).run (leaseState deps events k)).1.isOk = false

/-- A holder that succeeds held the lease, and only its own entry changed. -/
theorem LeaseEvent.presents_ok {s : MemoryChain B H} (hpresents : event.op.presents = some lease)
    (hok : ((event.exec deps).run s).1.isOk = true) :
    Holds s lease event.now ∧ ∀ k, k ≠ lease.range →
      (event.next deps s).backfillLeases.lookup k = s.backfillLeases.lookup k := by
  obtain ⟨now, op⟩ := event
  rw [LeaseEvent.next]
  rcases hrun : (LeaseEvent.exec deps ⟨now, op⟩).run s with ⟨err | result, t⟩
  · rw [hrun] at hok
    cases hok
  · cases op with
    | claim chainID target owner ttl token order => cases hpresents
    | call call => cases hpresents
    | renew presented ttl =>
      cases hpresents
      obtain ⟨_, h, rfl⟩ := run_map_ok hrun
      obtain ⟨hholds, current, -, rfl⟩ := renewBackfillRange_ok h
      exact ⟨hholds, fun k hk => lookup_insert_of_ne _ hk⟩
    | release presented =>
      cases hpresents
      obtain ⟨_, h, rfl⟩ := run_map_ok hrun
      obtain ⟨hholds, rfl⟩ := releaseBackfillRange_ok h
      exact ⟨hholds, fun k hk => lookup_erase_ne hk⟩
    | complete presented =>
      cases hpresents
      obtain ⟨_, h, rfl⟩ := run_map_ok hrun
      obtain ⟨hholds, -, rfl⟩ := completeBackfillRange_ok h
      exact ⟨hholds, fun k hk => lookup_erase_ne hk⟩

/-- **Backfill leases are exclusive** in every run with distinct tokens. -/
theorem lease_exclusion (hfresh : DistinctTokens events) (hwalks : WalksLeases deps events) :
    LeaseExclusion deps events where
  disjoint := by
    intro i hi time k k' lease lease' hk hk' _ _ hne n
    have hinv := leaseInvariant_run hwalks hi
    rw [hinv.keyed k lease hk, hinv.keyed k' lease' hk']
    -- the ranges in the map are disjoint, whether their leases have expired or not
    refine hinv.apart k lease k' lease' hk hk' ?_ n
    rintro rfl
    exact hne (Option.some.inj (hk.symm.trans hk'))
  bounded := by
    intro i hi k lease hk
    have hinv := leaseInvariant_run hwalks hi
    rw [hinv.keyed k lease hk]
    obtain ⟨hstart, hproper, hsize⟩ := hinv.within k lease hk
    exact ⟨hstart, hproper, hsize⟩
  uncovered := by
    intro i lease hgranted n hn
    obtain ⟨event, _, _, _, _, _, _, hevent, -, hgrant⟩ := hgranted.elim
    have hlen := (List.getElem?_eq_some_iff.mp hevent).1
    have hs := (leaseInvariant_run hwalks (le_of_lt hlen)).wellFormed
    rw [hgrant.range] at hn
    exact not_covers_of_not_meets hs.normalized hgrant.uncovered hn
  held := by
    intro i event lease hevent hpresents hok
    rw [leaseState_succ hevent]
    exact LeaseEvent.presents_ok hpresents hok
  completed := by
    intro i now lease _ hok n hn
    rcases hrun : (LeaseEvent.exec deps ⟨now, .complete lease⟩).run (leaseState deps events i)
      with ⟨err | result, t⟩
    · rw [hrun] at hok
      cases hok
    · obtain ⟨_, _, h, -⟩ := run_bind_ok.mp hrun
      exact covers_of_contains (completeBackfillRange_ok h).2.1 hn
  lost := by
    intro i j k old new presented event hij hjk hold hnew hover hevent hpresents htoken
    have hlen := (List.getElem?_eq_some_iff.mp hevent).1
    refine LeaseEvent.presents_gone event hpresents ?_
    rw [htoken]
    exact tokenGone_later hfresh hwalks hij hjk (le_of_lt hlen) hold hnew hover

end Runs

section Examples

/-- Decimal chain IDs and any token. -/
def plainDeps : LeaseDeps where
  normalizeChainID := .ok
  uuidParse := fun _ => true

/-- The lease of the first claim of `reclaimRun`. -/
def firstLease : BackfillLease := ⟨"1", ⟨5, 9⟩, "a", "t1", 12⟩

/-- A range is leased, the lease expires, an overlapping range is leased, and the
    first holder comes back. -/
def reclaimRun : List (LeaseEvent TermBundle TermHash) :=
  [⟨1, .call (.configureIndex 0)⟩, ⟨2, .claim "1" ⟨5, 9⟩ "a" 10 "t1" []⟩,
    ⟨20, .claim "1" ⟨7, 12⟩ "b" 10 "t2" [⟨5, 9⟩]⟩,
    ⟨21, .renew firstLease 10⟩]

theorem reclaimRun_walks : WalksLeases plainDeps reclaimRun := by
  intro i event h
  rcases i with _ | _ | _ | _ | i
  · cases h
    trivial
  · cases h
    exact ⟨nodup_nil, by decide +kernel⟩
  · cases h
    exact ⟨nodup_singleton _, by decide +kernel⟩
  · cases h
    trivial
  · cases h

/-- Lease exclusion at work: the first holder is turned away. -/
theorem lease_exclusion_reclaim : DistinctTokens reclaimRun ∧ WalksLeases plainDeps reclaimRun
    ∧ ((LeaseEvent.exec plainDeps ⟨21, .renew firstLease 10⟩).run
        (leaseState plainDeps reclaimRun 3)).1.isOk = false := by
  have hfresh : DistinctTokens reclaimRun :=
    (by decide : (reclaimRun.filterMap fun event => event.op.token).Nodup)
  refine ⟨hfresh, reclaimRun_walks, ?_⟩
  refine (lease_exclusion hfresh reclaimRun_walks).lost 1 2 3 firstLease
    ⟨"1", ⟨7, 12⟩, "b", "t2", 30⟩ firstLease _ (by decide) (by decide)
    ⟨_, rfl, by decide, by decide +kernel⟩ ⟨_, rfl, by decide, by decide +kernel⟩
      (by decide)
    rfl rfl rfl

end Examples

end Store
