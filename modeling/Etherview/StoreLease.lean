import Etherview.StoreCalls

/-! # Backfill leases

    `ClaimBackfillRange`, `RenewBackfillRange`, `ReleaseBackfillRange` and
    `CompleteBackfillRange` of the in-memory repository.  Leases are filed under
    their exact range while exclusion is by overlap, and expired leases are only
    removed by the next claim that walks over them.

    A claim walks over the lease map in Go's unspecified order, so the order is an
    argument; the token a claim draws from `uuid.NewString` is one as well.  Times
    are instants of one clock, with Go's zero time as 0. -/

namespace Store

open IntervalSet Transact MapUpdate List Tx Finmap

variable {B H : Type}

/-! ## Model -/

/-- What the lease methods take from other packages: `ethrpc.NormalizeChainID` and
    the acceptance of `uuid.Parse`. -/
structure LeaseDeps where
  normalizeChainID : String → Except String String
  uuidParse : String → Bool

/-- `MaxBackfillRangeBlocks`. -/
def maxBackfillRangeBlocks : Uint64 := 256

/-- `normalizeChainID`. -/
def LeaseDeps.chainID (deps : LeaseDeps) (chainID : String) : Except StoreError String :=
  (deps.normalizeChainID chainID).mapError fun text => .plain s!"invalid chain ID: {text}"

/-- The checks of a claim: range, owner, time and duration. -/
def validateBackfillClaim (target : BlockRange) (owner : String) (now ttl : Int) :
    Except StoreError Unit := do
  failIf (target.stop < target.start) (.plain "backfill range ends before it starts")
  failIf (maxBackfillRangeBlocks ≤ target.stop - target.start)
    (.plain s!"backfill range exceeds {maxBackfillRangeBlocks.val} blocks")
  failIf (Texts.trimSpace owner = "" ∨ (Texts.trimSpace owner).utf8ByteSize > 128)
    (.plain "backfill lease owner must contain 1 to 128 characters")
  failIf (now = 0) (.plain "backfill lease time is required")
  failIf (ttl ≤ 0) (.plain "backfill lease TTL must be positive")
  failIf (now + ttl < now) (.plain "backfill lease expiry overflows time")

/-- The checks of a lease that a worker presents. -/
def validateBackfillLease (deps : LeaseDeps) (lease : BackfillLease) : Except StoreError Unit := do
  let _ ← deps.chainID lease.chainID
  failIf (lease.range.stop < lease.range.start)
    (.plain "backfill lease range ends before it starts")
  failIf (Texts.trimSpace lease.owner = "" ∨ lease.owner.utf8ByteSize > 128)
    (.plain "backfill lease owner is invalid")
  failIf (deps.uuidParse lease.token = false) (.plain "backfill lease token is invalid")
  failIf (lease.expiresAt = 0) (.plain "backfill lease expiry is required")

/-- The lease that a claim is answered with. -/
def newBackfillLease (chainID : String) (target : BlockRange) (owner : String) (now ttl : Int)
    (token : String) : BackfillLease where
  chainID := chainID
  range := target
  owner := Texts.trimSpace owner
  token := token
  expiresAt := now + ttl

/-- The walk of a claim over the lease map: the leases it leaves and whether a live
    lease stopped it. -/
def claimLoop (target : BlockRange) (now : Int) :
    List BlockRange → Map BlockRange BackfillLease → Map BlockRange BackfillLease × Bool
  | [], leases => (leases, false)
  | key :: rest, leases =>
    match leases.lookup key with
    | none => claimLoop target now rest leases
    | some lease =>
      if ¬ now < lease.expiresAt then claimLoop target now rest (leases.erase key)
      else if rangesOverlap lease.range target = true then (leases, true)
      else claimLoop target now rest leases

/-- Replace the leases of a chain. -/
def setLeases (leases : Map BlockRange BackfillLease) (chain : MemoryChain B H) : MemoryChain B H :=
  { chain with backfillLeases := leases }

/-- The part of a claim after its checks. -/
def grantBackfillRange (order : List BlockRange) (lease : BackfillLease) (now : Int) :
    RepoM B H (Option BackfillLease) := do
  let chain ← Tx.get
  match claimLoop lease.range now order chain.backfillLeases with
  | (leases, true) => do
      Tx.modify (setLeases leases)
      return none
  | (leases, false) => do
      Tx.modify (setLeases (leases.insert lease.range lease))
      return some lease

/-- Claims a range that is not covered and that no unexpired lease overlaps. -/
def claimBackfillRange (deps : LeaseDeps) (chainID : String) (target : BlockRange)
    (owner : String) (now ttl : Int) (token : String) (order : List BlockRange) :
    RepoM B H (Option BackfillLease) := do
  let normalized ← deps.chainID chainID
  validateBackfillClaim target owner now ttl
  let chain ← Tx.get
  let start ← requireConfigured chain
  failIf (target.start < start)
    (StoreError.conflict s!"backfill range starts before configured height {start.val}")
  if rangeIntersectsCoverage chain.coverage target = true then return none
  else grantBackfillRange order (newBackfillLease normalized target owner now ttl token) now

/-- Two leases of one claim. -/
def sameLeaseOwner (left right : BackfillLease) : Bool :=
  decide (left.chainID = right.chainID) && decide (left.range = right.range)
    && decide (left.owner = right.owner) && decide (left.token = right.token)

theorem sameLeaseOwner_iff {left right : BackfillLease} : sameLeaseOwner left right = true ↔
    left.chainID = right.chainID ∧ left.range = right.range ∧ left.owner = right.owner
      ∧ left.token = right.token := by
  simp only [sameLeaseOwner, Bool.and_eq_true, decide_eq_true_eq, and_assoc]

theorem sameLeaseOwner_trans {a b c : BackfillLease} (hab : sameLeaseOwner a b = true)
    (hbc : sameLeaseOwner b c = true) : sameLeaseOwner a c = true := by
  rw [sameLeaseOwner_iff] at hab hbc ⊢
  exact ⟨hab.1.trans hbc.1, hab.2.1.trans hbc.2.1, hab.2.2.1.trans hbc.2.2.1,
    hab.2.2.2.trans hbc.2.2.2⟩

/-- The stored lease a holder presents, while it is live. -/
def ownedLease (chain : MemoryChain B H) (lease : BackfillLease) (now : Int) :
    Except StoreError BackfillLease :=
  match chain.backfillLeases.lookup lease.range with
  | none => .error (.sentinel .leaseLost)
  | some current =>
    if sameLeaseOwner current lease = true ∧ now < current.expiresAt then .ok current
    else .error (.sentinel .leaseLost)

/-- Gives a held lease a later end. -/
def renewBackfillRange (deps : LeaseDeps) (lease : BackfillLease) (now ttl : Int) :
    RepoM B H BackfillLease := do
  validateBackfillLease deps lease
  validateBackfillClaim lease.range lease.owner now ttl
  let chain ← Tx.get
  let current ← ownedLease chain lease now
  Tx.modify (setLeases
    (chain.backfillLeases.insert lease.range { current with expiresAt := now + ttl }))
  return { current with expiresAt := now + ttl }

/-- Gives a held lease back. -/
def releaseBackfillRange (deps : LeaseDeps) (lease : BackfillLease) (now : Int) :
    RepoM B H Unit := do
  validateBackfillLease deps lease
  let chain ← Tx.get
  let _ ← ownedLease chain lease now
  Tx.modify (setLeases (chain.backfillLeases.erase lease.range))

/-- Ends a held lease whose range is covered. -/
def completeBackfillRange (deps : LeaseDeps) (lease : BackfillLease) (now : Int) :
    RepoM B H Unit := do
  validateBackfillLease deps lease
  let chain ← Tx.get
  let _ ← ownedLease chain lease now
  failIf (rangeCovered chain.coverage lease.range = false)
    (StoreError.conflict "backfill range is not fully covered")
  Tx.modify (setLeases (chain.backfillLeases.erase lease.range))

/-! ## What the methods do -/

/-- Every entry of the second map is one of the first. -/
def Shrinks (before after : Map BlockRange BackfillLease) : Prop :=
  ∀ k lease, after.lookup k = some lease → before.lookup k = some lease

theorem shrinks_erase (leases : Map BlockRange BackfillLease) (key : BlockRange) :
    Shrinks leases (leases.erase key) := by
  intro k lease h
  by_cases hk : k = key
  · rw [hk, lookup_erase] at h
    cases h
  · rw [lookup_erase_ne hk] at h
    exact h

variable {target : BlockRange} {now : Int} {order : List BlockRange}

/-- A walk only removes leases; one that is not stopped has passed every lease that
    is left, found it live and found it apart from the target. -/
theorem claimLoop_spec {leases after : Map BlockRange BackfillLease} {stopped : Bool}
    (h : claimLoop target now order leases = (after, stopped)) :
    Shrinks leases after ∧ (stopped = false → ∀ k ∈ order, ∀ lease,
      after.lookup k = some lease → now < lease.expiresAt
        ∧ rangesOverlap lease.range target = false) := by
  induction order generalizing leases with
  | nil =>
    cases h
    exact ⟨fun _ _ hk => hk, fun _ k hk => absurd hk not_mem_nil⟩
  | cons key rest ih =>
    rw [claimLoop] at h
    cases hkey : leases.lookup key with
    | none =>
      simp only [hkey] at h
      obtain ⟨hshrink, hpassed⟩ := ih h
      refine ⟨hshrink, fun hs k hk lease hlook => ?_⟩
      rcases mem_cons.mp hk with rfl | hk
      · rw [hshrink k lease hlook] at hkey
        cases hkey
      · exact hpassed hs k hk lease hlook
    | some stored =>
      simp only [hkey] at h
      by_cases hexp : ¬ now < stored.expiresAt
      · -- expired: removed, so it is not among the leases left
        rw [if_pos hexp] at h
        obtain ⟨hshrink, hpassed⟩ := ih h
        refine ⟨fun k lease hk => shrinks_erase _ _ k lease (hshrink k lease hk),
          fun hs k hk lease hlook => ?_⟩
        rcases mem_cons.mp hk with rfl | hk
        · have herased := hshrink k lease hlook
          rw [lookup_erase] at herased
          cases herased
        · exact hpassed hs k hk lease hlook
      · rw [if_neg hexp] at h
        by_cases hover : rangesOverlap stored.range target = true
        · -- a live lease in the way stops the walk
          rw [if_pos hover] at h
          cases h
          exact ⟨fun _ _ hk => hk, fun hs => by cases hs⟩
        · rw [if_neg hover] at h
          obtain ⟨hshrink, hpassed⟩ := ih h
          refine ⟨hshrink, fun hs k hk lease hlook => ?_⟩
          rcases mem_cons.mp hk with rfl | hk
          · have hsame := hshrink k lease hlook
            rw [hkey] at hsame
            cases hsame
            exact ⟨not_not.mp hexp, Bool.not_eq_true _ ▸ hover⟩
          · exact hpassed hs k hk lease hlook

variable {owner : String} {ttl : Int}

/-- A range a claim accepts: proper and of at most 256 blocks. -/
theorem validateBackfillClaim_ok (h : validateBackfillClaim target owner now ttl = .ok ()) :
    target.Proper ∧ target.stop.val - target.start.val < 256 := by
  obtain ⟨_, hproper, h⟩ := bind_eq_ok.mp h
  obtain ⟨_, hsize, -⟩ := bind_eq_ok.mp h
  rw [failIf_eq_ok, not_lt] at hproper
  rw [failIf_eq_ok, not_le, Fin.lt_def, Fin.sub_val_of_le hproper] at hsize
  exact ⟨hproper, hsize⟩

/-- What a successful claim found and left. -/
structure Granted (s t : MemoryChain B H) (target : BlockRange) (now : Int) (token : String)
    (order : List BlockRange) (lease : BackfillLease) : Prop where
  range : lease.range = target
  holds : lease.token = token
  start : ∃ start, s.configuredStart = some start ∧ start ≤ target.start
  proper : target.Proper
  size : target.stop.val - target.start.val < 256
  uncovered : rangeIntersectsCoverage s.coverage target = false
  after : ∃ left, t = setLeases (left.insert target lease) s ∧ Shrinks s.backfillLeases left
    ∧ ∀ k ∈ order, ∀ other, left.lookup k = some other →
      now < other.expiresAt ∧ rangesOverlap other.range target = false

variable {deps : LeaseDeps} {s t : MemoryChain B H}

/-- A claim that does not fail is refused and at most drops leases, or is granted. -/
theorem claimBackfillRange_ok {chainID token : String} {result : Option BackfillLease}
    (h : (claimBackfillRange deps chainID target owner now ttl token order).run s
      = (.ok result, t)) :
    (result = none ∧ ∃ left, t = setLeases left s ∧ Shrinks s.backfillLeases left)
      ∨ ∃ lease, result = some lease ∧ Granted s t target now token order lease := by
  obtain ⟨normalized, -, h⟩ := run_liftM_bind_ok.mp h
  obtain ⟨hvalid, h⟩ := run_check_bind_ok.mp h
  obtain ⟨start, hstart, h⟩ := run_liftM_bind_ok.mp h
  obtain ⟨habove, h⟩ := run_check_bind_ok.mp h
  rw [failIf_eq_ok, not_lt] at habove
  obtain ⟨hproper, hsize⟩ := validateBackfillClaim_ok hvalid
  by_cases hcov : rangeIntersectsCoverage s.coverage target = true
  · rw [if_pos hcov] at h
    cases h
    exact .inl ⟨rfl, s.backfillLeases, rfl, fun _ _ hk => hk⟩
  · rw [if_neg hcov, grantBackfillRange, run_get_bind] at h
    rcases hloop : claimLoop target now order s.backfillLeases with ⟨left, stopped⟩
    obtain ⟨hshrink, hpassed⟩ := claimLoop_spec hloop
    have hloop' : claimLoop (newBackfillLease normalized target owner now ttl token).range now
        order s.backfillLeases = (left, stopped) := hloop
    rw [hloop'] at h
    cases stopped with
    | true =>
      cases h
      exact .inl ⟨rfl, left, rfl, hshrink⟩
    | false =>
      cases h
      exact .inr ⟨_, rfl, rfl, rfl, ⟨start, requireConfigured_ok.mp hstart, habove⟩, hproper,
        hsize, Bool.not_eq_true _ ▸ hcov, left, rfl, hshrink, hpassed rfl⟩

/-- The lease a holder presents is stored with the same owner and token and has
    not expired. -/
def Holds (s : MemoryChain B H) (lease : BackfillLease) (now : Int) : Prop :=
  ∃ current, s.backfillLeases.lookup lease.range = some current
    ∧ current.chainID = lease.chainID ∧ current.range = lease.range
    ∧ current.owner = lease.owner ∧ current.token = lease.token ∧ now < current.expiresAt

/-- A lease that is found is held under the presented owner and token, and has not
    expired. -/
theorem ownedLease_ok {lease current : BackfillLease} (h : ownedLease s lease now = .ok current) :
    s.backfillLeases.lookup lease.range = some current ∧ current.chainID = lease.chainID
      ∧ current.range = lease.range ∧ current.owner = lease.owner
      ∧ current.token = lease.token ∧ now < current.expiresAt := by
  rw [ownedLease] at h
  cases hlook : s.backfillLeases.lookup lease.range with
  | none =>
    rw [hlook] at h
    cases h
  | some stored =>
    simp only [hlook] at h
    by_cases hsame : sameLeaseOwner stored lease = true ∧ now < stored.expiresAt
    · rw [if_pos hsame] at h
      cases h
      obtain ⟨howner, hlive⟩ := hsame
      obtain ⟨hchain, hrange, howner, htoken⟩ := sameLeaseOwner_iff.mp howner
      exact ⟨rfl, hchain, hrange, howner, htoken, hlive⟩
    · rw [if_neg hsame] at h
      cases h

/-- A renewal is for a live lease of the holder and only moves its expiry. -/
theorem renewBackfillRange_ok {lease result : BackfillLease}
    (h : (renewBackfillRange deps lease now ttl).run s = (.ok result, t)) :
    Holds s lease now ∧ ∃ current, s.backfillLeases.lookup lease.range = some current
      ∧ t = setLeases
          (s.backfillLeases.insert lease.range { current with expiresAt := now + ttl }) s := by
  obtain ⟨-, h⟩ := run_check_bind_ok.mp h
  obtain ⟨-, h⟩ := run_check_bind_ok.mp h
  obtain ⟨current, howned, h⟩ := run_liftM_bind_ok.mp h
  cases h
  exact ⟨⟨current, ownedLease_ok howned⟩, current, (ownedLease_ok howned).1, rfl⟩

variable {lease : BackfillLease} {u : Unit}

/-- A release is for a live lease of the holder and only removes it. -/
theorem releaseBackfillRange_ok (h : (releaseBackfillRange deps lease now).run s = (.ok u, t)) :
    Holds s lease now ∧ t = setLeases (s.backfillLeases.erase lease.range) s := by
  obtain ⟨-, h⟩ := run_check_bind_ok.mp h
  obtain ⟨current, howned, h⟩ := run_liftM_bind_ok.mp h
  exact ⟨⟨current, ownedLease_ok howned⟩, run_modify_ok.mp h⟩

/-- A held lease is released. -/
theorem releaseBackfillRange_held (hvalid : validateBackfillLease deps lease = .ok ())
    (hheld : Holds s lease now) :
    (releaseBackfillRange deps lease now).run s
      = (.ok (), setLeases (s.backfillLeases.erase lease.range) s) := by
  obtain ⟨current, hlook, hchain, hrange, howner, htoken, hlive⟩ := hheld
  have howned : ownedLease s lease now = .ok current := by
    simp only [ownedLease, hlook]
    exact if_pos ⟨sameLeaseOwner_iff.mpr ⟨hchain, hrange, howner, htoken⟩, hlive⟩
  rw [releaseBackfillRange]
  refine run_check_bind_ok.mpr ⟨hvalid, ?_⟩
  rw [run_get_bind]
  exact run_liftM_bind_ok.mpr ⟨current, howned, rfl⟩

/-- A completion is for a live lease of the holder, needs the whole range covered
    and only removes the lease. -/
theorem completeBackfillRange_ok (h : (completeBackfillRange deps lease now).run s = (.ok u, t)) :
    Holds s lease now ∧ rangeCovered s.coverage lease.range = true
      ∧ t = setLeases (s.backfillLeases.erase lease.range) s := by
  obtain ⟨-, h⟩ := run_check_bind_ok.mp h
  obtain ⟨current, howned, h⟩ := run_liftM_bind_ok.mp h
  obtain ⟨hcov, h⟩ := run_check_bind_ok.mp h
  rw [failIf_eq_ok, Bool.not_eq_false] at hcov
  exact ⟨⟨current, ownedLease_ok howned⟩, hcov, run_modify_ok.mp h⟩

/-! ### Failed lease calls change nothing -/

/-- A claim that fails changes nothing. -/
theorem claimBackfillRange_atomic (deps : LeaseDeps) (chainID : String) (target : BlockRange)
    (owner : String) (now ttl : Int) (token : String) (order : List BlockRange) :
    (claimBackfillRange deps chainID target owner now ttl token order :
      RepoM B H (Option BackfillLease)).Atomic := by
  rw [claimBackfillRange]
  refine Atomic.check fun normalized => ?_
  refine Atomic.check fun _ => ?_
  refine Atomic.read fun chain => ?_
  refine Atomic.check fun start => ?_
  refine Atomic.check fun _ => ?_
  by_cases hcov : rangeIntersectsCoverage chain.coverage target = true
  · rw [if_pos hcov]
    exact neverFails_pure.atomic
  · rw [if_neg hcov, grantBackfillRange]
    refine Atomic.read fun chain => NeverFails.atomic ?_
    rcases claimLoop _ now order chain.backfillLeases with ⟨left, stopped⟩
    cases stopped with
    | true | false => exact neverFails_modify.bind fun _ => neverFails_pure

section

variable (deps : LeaseDeps) (lease : BackfillLease)

theorem renewBackfillRange_atomic (now ttl : Int) :
    (renewBackfillRange deps lease now ttl : RepoM B H BackfillLease).Atomic := by
  rw [renewBackfillRange]
  refine Atomic.check fun _ => ?_
  refine Atomic.check fun _ => ?_
  refine Atomic.read fun chain => ?_
  refine Atomic.check fun current => NeverFails.atomic ?_
  exact neverFails_modify.bind fun _ => neverFails_pure

/-- A release that fails changes nothing. -/
theorem releaseBackfillRange_atomic (now : Int) :
    (releaseBackfillRange deps lease now : RepoM B H Unit).Atomic := by
  rw [releaseBackfillRange]
  refine Atomic.check fun _ => ?_
  refine Atomic.read fun chain => ?_
  exact Atomic.check fun current => neverFails_modify.atomic

/-- A completion that fails changes nothing. -/
theorem completeBackfillRange_atomic (now : Int) :
    (completeBackfillRange deps lease now : RepoM B H Unit).Atomic := by
  rw [completeBackfillRange]
  refine Atomic.check fun _ => ?_
  refine Atomic.read fun chain => ?_
  refine Atomic.check fun current => ?_
  exact Atomic.check fun _ => neverFails_modify.atomic

end

end Store
