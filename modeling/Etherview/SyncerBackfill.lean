import Mathlib.Algebra.Order.Ring.Nat
import Etherview.Interaction
import Etherview.StoreLease

/-! # Backfill of a leased range

    `processBackfillLease` of `internal/syncer/service.go` with
    `renewBackfillLeaseIfNeeded`, `resolveBackfillCommitError` and
    `chainbundle.MeasureWork`, as a program over the clock, the repository and the block
    source.  The program fetches the blocks of the range one by one, collects them in a
    segment, and commits the segment when the next block would exceed a limit.

    The Go variable `lease` is read by the deferred release, so every early return
    carries its value.  A failed renewal assigns the zero lease to it.

    * `lease_released_iff`: the claimed lease is released on a return before completion
      exactly when no renewal failed.
    * `segments_exact`: the committed segments are the blocks of the range in order, cut
      within the limits.

    Wake-up signals and the capacity of the segment are left out, and the resolution of a
    commit conflict is one request. -/

namespace Syncer

open Store Interaction Transact IntervalSet List Prog

/-! ## Work sizes -/

/-- `chainbundle.WorkSize`. -/
structure WorkSize where
  rawBytes : Uint64
  rows : Uint64
deriving DecidableEq, Repr

/-- A sum within the room that is left does not wrap. -/
theorem val_add_of_room {a b : Uint64} (h : b ≤ maxUint64 - a) : (a + b).val = a.val + b.val := by
  rw [Fin.le_def, Fin.sub_val_of_le (le_maxUint64 a), maxUint64_val] at h
  exact Fin.val_add_eq_of_add_lt (by omega)

namespace WorkSize

/-- No work. -/
def zero : WorkSize := ⟨0, 0⟩

/-- Adds bytes that were measured; an overflow is an error. -/
def addBytes (work : WorkSize) (value : Nat) : Except String WorkSize := do
  failIf (maxUint64 - work.rawBytes < uint64 value) "measure bundle work: raw byte size overflow"
  pure { work with rawBytes := work.rawBytes + uint64 value }

/-- Adds rows that were measured; an overflow is an error. -/
def addRows (work : WorkSize) (value : Uint64) : Except String WorkSize := do
  failIf (maxUint64 - work.rows < value) "measure bundle work: row count overflow"
  pure { work with rows := work.rows + value }

/-- `WorkSize.Add`; an overflow is an error. -/
def add (work other : WorkSize) : Except String WorkSize := do
  failIf (maxUint64 - work.rawBytes < other.rawBytes ∨ maxUint64 - work.rows < other.rows)
    "add bundle work: size overflow"
  pure ⟨work.rawBytes + other.rawBytes, work.rows + other.rows⟩

/-- One of the two sizes is above its limit. -/
def Exceeds (work limit : WorkSize) : Prop :=
  limit.rawBytes < work.rawBytes ∨ limit.rows < work.rows

instance (work limit : WorkSize) : Decidable (work.Exceeds limit) :=
  inferInstanceAs (Decidable (_ ∨ _))

theorem add_ok {work other sum : WorkSize} (h : work.add other = .ok sum) :
    sum.rawBytes.val = work.rawBytes.val + other.rawBytes.val
      ∧ sum.rows.val = work.rows.val + other.rows.val := by
  obtain ⟨_, hroom, h⟩ := bind_eq_ok.mp h
  cases pure_eq_ok.mp h
  obtain ⟨hbytes, hrows⟩ := not_or.mp (failIf_eq_ok.mp hroom)
  exact ⟨val_add_of_room (not_lt.mp hbytes), val_add_of_room (not_lt.mp hrows)⟩

theorem not_exceeds_zero (limit : WorkSize) : ¬ zero.Exceeds limit := by
  rintro (h | h)
  · exact absurd h (not_lt.mpr (Fin.zero_le _))
  · exact absurd h (not_lt.mpr (Fin.zero_le _))

end WorkSize

/-- What `MeasureWork` reads of a bundle: the lengths of its raw parts, the transactions
    and withdrawals of its block and the logs of its receipts. -/
structure BundleParts where
  block : Option (Nat × Nat)
  rawBlock : Nat
  rawTransactions : List Nat
  receipts : List (Option Nat)
  rawReceipts : List Nat
  rawLogs : List (List Nat)
  rawUncles : List Nat
  rawWithdrawals : List Nat

/-- A type of bundles with their parts. -/
class HasParts (B : Type) where
  parts : B → BundleParts

/-- One row and the bytes of each entry. -/
def addEntries : List Nat → WorkSize → Except String WorkSize
  | [], work => .ok work
  | raw :: rest, work => do
      let work ← work.addRows 1
      let work ← work.addBytes raw
      addEntries rest work

/-- The loop over the transactions; an item is the raw transaction, the receipt, the raw
    receipt and the raw logs. -/
def addTransactions : Nat → List (Nat × Option Nat × Nat × List Nat) → WorkSize →
    Except String WorkSize
  | _, [], work => .ok work
  | index, (rawTransaction, receipt, rawReceipt, rawLogs) :: rest, work => do
      failIf (receipt ≠ some rawLogs.length)
        s!"measure bundle work: receipt {index} is misaligned"
      let work ← work.addRows 3
      let work ← work.addBytes rawTransaction
      let work ← work.addBytes rawReceipt
      let work ← addEntries rawLogs work
      addTransactions (index + 1) rest work

/-- The bytes of each entry. -/
def addAllBytes : List Nat → WorkSize → Except String WorkSize
  | [], work => .ok work
  | raw :: rest, work => do
      let work ← work.addBytes raw
      addAllBytes rest work

/-- `MeasureWork`: the raw bytes and the rows of a bundle, after a check of its parts. -/
def measureWork (parts : BundleParts) : Except String WorkSize := do
  match parts.block with
  | none => .error "measure bundle work: block is nil"
  | some (transactions, withdrawals) =>
    failIf (parts.rawTransactions.length ≠ transactions ∨
        parts.receipts.length ≠ transactions ∨
        parts.rawReceipts.length ≠ transactions ∨ parts.rawLogs.length ≠ transactions ∨
        parts.rawWithdrawals.length ≠ withdrawals)
      "measure bundle work: raw and typed collections are misaligned"
    let work ← WorkSize.addBytes ⟨0, 1⟩ parts.rawBlock
    let work ← addTransactions 0
      (parts.rawTransactions.zip (parts.receipts.zip (parts.rawReceipts.zip parts.rawLogs))) work
    let work ← addAllBytes parts.rawUncles work
    addEntries parts.rawWithdrawals work

/-! ## Requests -/

variable {B : Type}

/-- The outcome of a resolved conflict, as far as it matters here. -/
inductive ConflictOutcome where
  | alreadyKnown
  | changed
deriving DecidableEq, Repr

/-- What a worker asks of its environment. -/
inductive BackfillRequest (B : Type) where
  | now
  | renew (lease : BackfillLease) (now ttl : Int)
  | fetch (number : Uint64)
  | commit (segment : List B)
  | complete (lease : BackfillLease)
  | release (lease : BackfillLease)
  | resolveConflict

/-- What each request is answered with. -/
@[reducible] def BackfillAnswer : BackfillRequest B → Type
  | .now => Int
  | .renew _ _ _ => Except StoreError BackfillLease
  | .fetch _ => Except String B
  | .commit _ => Except StoreError Unit
  | .complete _ => Except StoreError Unit
  | .release _ => Except StoreError Unit
  | .resolveConflict => Except String ConflictOutcome

/-- The interface of a worker. -/
@[reducible] def backfillInterface (B : Type) : Interface where
  Request := BackfillRequest B
  Answer := BackfillAnswer

/-- What `errors.Is` can tell about an error of a backfill. -/
inductive BackfillCause where
  | workLimit
  | store (kind : ErrorKind)
  | plain
deriving DecidableEq, Repr

/-- An error of a worker, with the sentinel it wraps. -/
structure BackfillError where
  cause : BackfillCause
  text : String
deriving DecidableEq, Repr

/-- `ErrBackfillWorkLimit` with a detail after it. -/
def BackfillError.workLimit (detail : String) : BackfillError :=
  ⟨.workLimit, "backfill bundle exceeds configured work limit: " ++ detail⟩

/-- A repository error with a context before it. -/
def BackfillError.storeContext (context : String) (err : StoreError) : BackfillError :=
  ⟨.store err.kind, context ++ ": " ++ err.text⟩

/-- An early return: its error, if any, and the value of the variable `lease`. -/
structure Exit where
  error : Option BackfillError
  lease : BackfillLease

/-- A backfill that may return early. -/
abbrev BackfillM (B : Type) := Prog (backfillInterface B) Exit

/-- One request. -/
def ask (request : BackfillRequest B) : BackfillM B (BackfillAnswer request) :=
  Prog.request (I := backfillInterface B) request

/-- The zero value of `store.BackfillLease`. -/
def zeroLease : BackfillLease := ⟨"", ⟨0, 0⟩, "", "", 0⟩

/-! ## The program -/

/-- The fields of `Service` that a backfill reads; the batch limits and the lease
    duration as they are configured. -/
structure BackfillConfig where
  configuredBytes : Uint64
  configuredRows : Uint64
  configuredLease : Int

namespace BackfillConfig

variable (config : BackfillConfig)

/-- The configured bytes of a batch, or the default. -/
def backfillBatchBytes : Uint64 :=
  if config.configuredBytes < 2 then 268435456 else config.configuredBytes

/-- The configured rows of a batch, or the default. -/
def backfillBatchRows : Uint64 :=
  if config.configuredRows < 2 then 200000 else config.configuredRows

/-- `leaseDuration`, in nanoseconds. -/
def leaseDuration : Int :=
  if config.configuredLease ≤ 0 then 30000000000 else config.configuredLease

/-- A segment may take half of a batch. -/
def segmentLimit : WorkSize := ⟨config.backfillBatchBytes / 2, config.backfillBatchRows / 2⟩

/-- `renewBackfillLeaseIfNeeded`, with the two values it returns. -/
def renewBackfillLeaseIfNeeded (lease : BackfillLease) :
    BackfillM B (BackfillLease × Option BackfillError) := do
  let now ← ask .now
  if ¬ now + config.leaseDuration / 2 > lease.expiresAt then pure (lease, none)
  else do
    let now ← ask .now
    match ← ask (.renew lease now config.leaseDuration) with
    | .ok renewed => pure (renewed, none)
    | .error err => pure (zeroLease, some (.storeContext
        s!"renew backfill range {lease.range.start.val}-{lease.range.stop.val}" err))

/-- The variables of the loop. -/
structure Vars (B : Type) where
  lease : BackfillLease
  segment : List B
  segmentWork : WorkSize

/-- The closure `commitSegment`. -/
def commitSegment (vars : Vars B) : BackfillM B (Vars B × Option BackfillError) :=
  match vars.segment with
  | [] => pure (vars, none)
  | _ :: _ => do
      let (lease, renewErr) ← config.renewBackfillLeaseIfNeeded vars.lease
      match renewErr with
      | some err => pure ({ vars with lease := lease }, some err)
      | none => do
          match ← ask (.commit vars.segment) with
          | .error err => pure ({ vars with lease := lease }, some ⟨.store err.kind, err.text⟩)
          | .ok _ => pure (⟨lease, [], WorkSize.zero⟩, none)

/-- `resolveBackfillCommitError`, and the early return with its result. -/
def resolveBackfillCommitError {α : Type} (lease : BackfillLease) (err : BackfillError) :
    BackfillM B α := do
  let failed : BackfillError := ⟨err.cause,
    s!"commit historical range {lease.range.start.val}-{lease.range.stop.val}: {err.text}"⟩
  if err.cause = .store .conflict then do
    match ← ask .resolveConflict with
    | .ok .changed => .fail ⟨none, lease⟩
    | .ok .alreadyKnown => .fail ⟨some failed, lease⟩
    | .error text => .fail ⟨some ⟨.plain,
        s!"resolve historical boundary conflict from authoritative head: {text}"⟩, lease⟩
  else .fail ⟨some failed, lease⟩

variable [HasParts B]

/-- The checks of a fetched bundle: its work and that of the segment with it. -/
def admitBundle (number : Uint64) (segmentWork : WorkSize) (bundle : B) :
    Except BackfillError (WorkSize × WorkSize) := do
  let bundleWork ← (measureWork (HasParts.parts bundle)).mapError fun text =>
    (⟨.plain, s!"measure historical block {number.val} work: {text}"⟩ : BackfillError)
  failIf (bundleWork.Exceeds config.segmentLimit)
    (BackfillError.workLimit (s!"block {number.val} owns {bundleWork.rawBytes.val} raw bytes " ++
      s!"and {bundleWork.rows.val} rows; per-block limits are " ++
      s!"{config.segmentLimit.rawBytes.val} and {config.segmentLimit.rows.val}"))
  let combined ← (segmentWork.add bundleWork).mapError fun _ =>
    BackfillError.workLimit s!"block {number.val} work overflow"
  pure (bundleWork, combined)

/-- The flush before a bundle that no longer fits, and the work after it. -/
def flushFull (vars : Vars B) (bundleWork combined : WorkSize) : BackfillM B (Vars B × WorkSize) :=
  if vars.segment ≠ [] ∧ combined.Exceeds config.segmentLimit then do
    let (vars, err) ← config.commitSegment vars
    match err with
    | some err => resolveBackfillCommitError vars.lease err
    | none => pure (vars, bundleWork)
  else pure (vars, combined)

/-- One round of the loop. -/
def backfillBlock (number : Uint64) (vars : Vars B) : BackfillM B (Vars B) := do
  let (lease, err) ← config.renewBackfillLeaseIfNeeded vars.lease
  match err with
  | some err => .fail ⟨some err, lease⟩
  | none => do
      match ← ask (.fetch number) with
      | .error text =>
        .fail ⟨some ⟨.plain, s!"fetch historical block {number.val}: {text}"⟩, lease⟩
      | .ok bundle => do
          let (bundleWork, combined) ←
            (config.admitBundle number vars.segmentWork bundle).mapError
              fun err => Exit.mk (some err) lease
          let (vars, work) ← config.flushFull { vars with lease := lease } bundleWork combined
          pure { vars with segment := vars.segment ++ [bundle], segmentWork := work }

/-- The loop over the heights.  The source has no bound on its rounds; the number of
    heights of the claimed range is one as long as renewals keep the range. -/
def backfillLoop : Nat → Uint64 → Vars B → BackfillM B (Vars B)
  | 0, _, vars => .fail ⟨some ⟨.plain, "unreachable"⟩, vars.lease⟩
  | rounds + 1, number, vars => do
      let vars ← config.backfillBlock number vars
      if number = vars.lease.range.stop then pure vars
      else backfillLoop rounds (number + 1) vars

/-- The body of `processBackfillLease`; it ends without an early return when the range
    is completed or the lease is lost. -/
def backfillRange (lease : BackfillLease) : BackfillM B Unit := do
  let vars ← config.backfillLoop ((lease.range.stop - lease.range.start).val + 1)
    lease.range.start ⟨lease, [], WorkSize.zero⟩
  let (vars, err) ← config.commitSegment vars
  match err with
  | some err => resolveBackfillCommitError vars.lease err
  | none => do
      match ← ask (.complete vars.lease) with
      | .ok _ => pure ()
      | .error err =>
        if err.kind = .leaseLost then pure ()
        else .fail ⟨some (.storeContext
          (s!"complete historical range {vars.lease.range.start.val}-" ++
            s!"{vars.lease.range.stop.val}") err), vars.lease⟩

/-- `processBackfillLease`: an early return releases the lease that the variable holds. -/
def processBackfillLease (lease : BackfillLease) :
    Prog (backfillInterface B) BackfillError Unit := do
  match ← (config.backfillRange lease).attempt with
  | .ok _ => pure ()
  | .error exit => do
      let _ ← Prog.request (I := backfillInterface B) (.release exit.lease)
      match exit.error with
      | none => pure ()
      | some err => .fail err

end BackfillConfig

/-! ## What a log says -/

/-- A fetched block. -/
def fetchedOf : Event (backfillInterface B) → Option (Uint64 × B)
  | ⟨.fetch number, .ok bundle⟩ => some (number, bundle)
  | _ => none

theorem fetchedOf_fetch (number : Uint64) (bundle : B) :
    fetchedOf ⟨.fetch number, .ok bundle⟩ = some (number, bundle) := rfl

/-- The segment of a commit call. -/
def commitOf : Event (backfillInterface B) → Option (List B)
  | ⟨.commit segment, _⟩ => some segment
  | _ => none

/-- The segment of a commit that succeeded. -/
def committedOf : Event (backfillInterface B) → Option (List B)
  | ⟨.commit segment, .ok _⟩ => some segment
  | _ => none

theorem commitOf_commit (segment : List B) (answer : Except StoreError Unit) :
    commitOf ⟨.commit segment, answer⟩ = some segment := rfl

theorem committedOf_commit (segment : List B) (value : Unit) :
    committedOf ⟨.commit segment, .ok value⟩ = some segment := rfl

/-- A renewal that failed. -/
def renewalFails : Event (backfillInterface B) → Bool
  | ⟨.renew _ _ _, .error _⟩ => true
  | _ => false

/-- A completion that succeeded or reported `ErrLeaseLost`. -/
def settles : Event (backfillInterface B) → Bool
  | ⟨.complete _, .ok _⟩ => true
  | ⟨.complete _, .error err⟩ => decide (err.kind = .leaseLost)
  | _ => false

/-- A released lease. -/
def releaseOf : Event (backfillInterface B) → Option BackfillLease
  | ⟨.release lease, _⟩ => some lease
  | _ => none

/-- What may be answered: a renewal returns the lease with another expiry, and everything
    else is left to the clock, the repository and the source. -/
def BackfillServes : (request : BackfillRequest B) → BackfillAnswer request → Prop
  | .renew lease _ _, answer =>
    ∀ renewed, answer = .ok renewed → sameLeaseOwner renewed lease = true
  | _, _ => True

variable {α : Type} {f : α → Bool} {l : List α} {x : α}

theorem any_snoc (hx : f x = false) : (l ++ [x]).any f = l.any f := by
  simp [hx]

theorem any_snoc_false (hl : l.any f = false)
    (hx : f x = false) : (l ++ [x]).any f = false := (any_snoc hx).trans hl

theorem filterMap_snoc_none {β : Type} {f : α → Option β} (h : f x = none) :
    (l ++ [x]).filterMap f = l.filterMap f := by
  simp [h]

theorem filterMap_snoc_some {β : Type} {f : α → Option β} {y : β}
    (h : f x = some y) : (l ++ [x]).filterMap f = l.filterMap f ++ [y] := by
  simp [h]

/-- The heights from `start` on. -/
def heights (start : Uint64) (count : Nat) : List Uint64 :=
  (List.range count).map fun i => start + uint64 i

/-- The number of heights of a range. -/
def rangeCount (range : BlockRange) : Nat := (range.stop - range.start).val + 1

/-- The heights of a range. -/
def heightsOf (range : BlockRange) : List Uint64 := heights range.start (rangeCount range)

section Segments

variable [HasParts B]

/-- The bundles of a segment are measured and their work adds up to the two sums. -/
def Measures (segment : List B) (bytes rows : Nat) : Prop :=
  ∃ works, List.Forall₂ (fun bundle work => measureWork (HasParts.parts bundle) = .ok work)
      segment works
    ∧ (works.map fun work => work.rawBytes.val).sum = bytes
    ∧ (works.map fun work => work.rows.val).sum = rows

/-- The summed work of a segment is within both limits. -/
def BackfillConfig.Fits (config : BackfillConfig) (segment : List B) : Prop :=
  ∃ bytes rows, Measures segment bytes rows ∧ bytes ≤ config.segmentLimit.rawBytes.val
    ∧ rows ≤ config.segmentLimit.rows.val

end Segments

theorem heights_succ (start : Uint64) (count : Nat) :
    heights start (count + 1) = heights start count ++ [start + uint64 count] := by
  rw [heights, range_succ, map_append]
  rfl

/-- The height after a number of others. -/
theorem height_succ (start : Uint64) (count : Nat) :
    start + uint64 count + 1 = start + uint64 (count + 1) := by
  have hone : (1 : Uint64).val = 1 := rfl
  apply Fin.val_injective
  rw [Fin.val_add, Fin.val_add, Fin.val_add, hone, uint64, uint64, Fin.val_ofNat, Fin.val_ofNat]
  omega

/-- The last height of a range, by counting. -/
theorem height_last {range : BlockRange} {count : Nat} (hcount : count < rangeCount range) :
    range.start + uint64 count = range.stop ↔ count + 1 = rangeCount range := by
  have hlt : count < 18446744073709551616 := by
    rw [rangeCount] at hcount
    omega
  have hdiff : (range.stop - range.start).val
      = (18446744073709551616 - range.start.val + range.stop.val) % 18446744073709551616 := by
    rw [Fin.sub_def]
  rw [← Fin.val_inj, Fin.val_add, uint64_val hlt, rangeCount, hdiff]
  omega

/-- Fewer heights are a prefix of more. -/
theorem heights_prefix (start : Uint64) {m n : Nat} (h : m ≤ n) :
    heights start m <+: heights start n := by
  have htake : (List.range n).take m = List.range m := by rw [take_range, min_eq_left h]
  rw [heights, heights, ← htake]
  exact (List.take_prefix _ _).map _

/-! ## The invariant of the loop -/

section Invariant

variable [HasParts B] (config : BackfillConfig) (claimed : BackfillLease)

/-- An event that none of the results looks at. -/
structure Silent (event : Event (backfillInterface B)) : Prop where
  fetched : fetchedOf event = none
  commit : commitOf event = none
  committed : committedOf event = none
  renewal : renewalFails event = false
  settles : settles event = false
  release : releaseOf event = none

/-- The log before completion or an early return: `count` blocks have been fetched and
    are committed, in the segment or `pending`. -/
structure Progress (log : List (Event (backfillInterface B))) (count : Nat)
    (vars : BackfillConfig.Vars B) (pending : List B) : Prop where
  same : sameLeaseOwner vars.lease claimed = true
  renewed : log.any renewalFails = false
  settled : log.any settles = false
  released : log.filterMap releaseOf = []
  within : count ≤ rangeCount claimed.range
  numbers : (log.filterMap fetchedOf).map Prod.fst = heights claimed.range.start count
  bundles : (log.filterMap fetchedOf).map Prod.snd
    = (log.filterMap committedOf).flatten ++ (vars.segment ++ pending)
  calls : log.filterMap commitOf = log.filterMap committedOf
  segments : ∀ segment ∈ log.filterMap commitOf, segment ≠ [] ∧ config.Fits segment
  measured : Measures vars.segment vars.segmentWork.rawBytes.val vars.segmentWork.rows.val
  fits : ¬ vars.segmentWork.Exceeds config.segmentLimit

/-- The log at an early return with the variable `lease`. -/
structure Stopped (log : List (Event (backfillInterface B))) (lease : BackfillLease) : Prop where
  lease : (log.any renewalFails = false ∧ sameLeaseOwner lease claimed = true)
    ∨ (log.any renewalFails = true ∧ lease = zeroLease)
  settled : log.any settles = false
  released : log.filterMap releaseOf = []
  numbers : (log.filterMap fetchedOf).map Prod.fst <+: heightsOf claimed.range
  committed : (log.filterMap committedOf).flatten <+: (log.filterMap fetchedOf).map Prod.snd
  segments : ∀ segment ∈ log.filterMap commitOf, segment ≠ [] ∧ config.Fits segment

variable {config claimed}
variable {log : List (Event (backfillInterface B))} {count : Nat}
  {vars : BackfillConfig.Vars B} {pending : List B}

/-- An event that neither fetches nor commits keeps the progress. -/
theorem Progress.silent (h : Progress config claimed log count vars pending)
    (event : Event (backfillInterface B)) (he : Silent event) :
    Progress config claimed (log ++ [event]) count vars pending where
  same := h.same
  renewed := any_snoc_false h.renewed he.renewal
  settled := any_snoc_false h.settled he.settles
  released := (filterMap_snoc_none he.release).trans h.released
  within := h.within
  numbers := by
    rw [filterMap_snoc_none he.fetched]
    exact h.numbers
  bundles := by
    rw [filterMap_snoc_none he.fetched, filterMap_snoc_none he.committed]
    exact h.bundles
  calls := by
    rw [filterMap_snoc_none he.commit, filterMap_snoc_none he.committed]
    exact h.calls
  segments := by
    rw [filterMap_snoc_none he.commit]
    exact h.segments
  measured := h.measured
  fits := h.fits

variable {lease : BackfillLease}

/-- An event that neither fetches nor commits changes nothing for a worker that stopped.
    -/
theorem Stopped.silent (h : Stopped config claimed log lease)
    (event : Event (backfillInterface B)) (he : Silent event) :
    Stopped config claimed (log ++ [event]) lease where
  lease := by
    rw [any_snoc he.renewal]
    exact h.lease
  settled := any_snoc_false h.settled he.settles
  released := (filterMap_snoc_none he.release).trans h.released
  numbers := by
    rw [filterMap_snoc_none he.fetched]
    exact h.numbers
  committed := by
    rw [filterMap_snoc_none he.committed, filterMap_snoc_none he.fetched]
    exact h.committed
  segments := by
    rw [filterMap_snoc_none he.commit]
    exact h.segments

section

variable (h : Progress config claimed log count vars pending)
include h

/-- What is committed was fetched, in the order of the heights. -/
theorem Progress.committed_prefix :
    (log.filterMap committedOf).flatten <+: (log.filterMap fetchedOf).map Prod.snd := by
  rw [h.bundles]
  exact prefix_append _ _

theorem Progress.numbers_prefix :
    (log.filterMap fetchedOf).map Prod.fst <+: heightsOf claimed.range := by
  rw [h.numbers]
  exact heights_prefix _ h.within

theorem Progress.segment_fits : config.Fits vars.segment := by
  obtain ⟨hbytes, hrows⟩ := not_or.mp h.fits
  exact ⟨_, _, h.measured, not_lt.mp hbytes, not_lt.mp hrows⟩

theorem Progress.measured_nil (hempty : vars.segment = []) :
    vars.segmentWork.rawBytes.val = 0 ∧ vars.segmentWork.rows.val = 0 := by
  obtain ⟨works, hworks, hbytes, hrows⟩ := h.measured
  rw [hempty] at hworks
  cases hworks
  exact ⟨hbytes.symm, hrows.symm⟩

/-- A return without a failed renewal holds the claimed lease. -/
theorem Progress.stopped : Stopped config claimed log vars.lease :=
  ⟨.inl ⟨h.renewed, h.same⟩, h.settled, h.released, h.numbers_prefix, h.committed_prefix,
    h.segments⟩

end

/-! ## Rounds -/

/-- A program that ends with `facts`, or with an early return whose log is in order. -/
def LeaseEnds {α : Type} (config : BackfillConfig) (claimed : BackfillLease)
    (facts : α → List (Event (backfillInterface B)) → Prop) :
    Except Exit α → List (Event (backfillInterface B)) → Prop
  | .ok value, log => facts value log
  | .error exit, log => Stopped config claimed log exit.lease

/-- The environment of a worker; its state is the log of what happened. -/
def backfillWorld : World (backfillInterface B) (List (Event (backfillInterface B))) :=
  World.traced BackfillServes

variable {α : Type} {facts : α → List (Event (backfillInterface B)) → Prop}

/-- Two parts of a worker, one after the other. -/
theorem leaseEnds_bind {β : Type} {p : BackfillM B α} {f : α → BackfillM B β}
    {facts' : β → List (Event (backfillInterface B)) → Prop}
    (hp : p.Sat backfillWorld (LeaseEnds config claimed facts) log)
    (hf : ∀ value log', facts value log' →
      (f value).Sat backfillWorld (LeaseEnds config claimed facts') log') :
    (p >>= f).Sat backfillWorld (LeaseEnds config claimed facts') log := by
  refine sat_bind.mpr (hp.mono ?_)
  rintro (exit | value) log' h
  · exact h
  · exact hf value log' h

/-- What a renewal comes to: the claimed lease, or the zero lease after a failure. -/
def RenewEnds (config : BackfillConfig) (claimed : BackfillLease) (count : Nat)
    (vars : BackfillConfig.Vars B) (pending : List B)
    (answer : BackfillLease × Option BackfillError)
    (log : List (Event (backfillInterface B))) : Prop :=
  match answer.2 with
  | none => Progress config claimed log count { vars with lease := answer.1 } pending
  | some _ => Stopped config claimed log answer.1

section

variable (h : Progress config claimed log count vars pending)
include h

/-- After a failed renewal the variable holds the zero lease. -/
theorem Progress.renewal_failed (lease : BackfillLease) (now ttl : Int) (err : StoreError) :
    Stopped config claimed (log ++ [⟨.renew lease now ttl, .error err⟩]) zeroLease where
  lease := by simp [renewalFails]
  settled := any_snoc_false h.settled rfl
  released := (filterMap_snoc_none rfl).trans h.released
  numbers := by
    rw [filterMap_snoc_none rfl]
    exact h.numbers_prefix
  committed := by
    rw [filterMap_snoc_none rfl, filterMap_snoc_none rfl]
    exact h.committed_prefix
  segments := by
    rw [filterMap_snoc_none rfl]
    exact h.segments

/-- The lease may be replaced by one of the same owner. -/
theorem Progress.with_lease (hsame : sameLeaseOwner lease vars.lease = true) :
    Progress config claimed log count { vars with lease := lease } pending :=
  { h with same := sameLeaseOwner_trans hsame h.same }

/-- A renewal keeps the progress. -/
theorem renew_sat : (config.renewBackfillLeaseIfNeeded vars.lease).Sat backfillWorld
      (LeaseEnds config claimed (RenewEnds config claimed count vars pending)) log := by
  refine sat_traced fun now _ => ?_
  have h := h.silent ⟨.now, now⟩ ⟨rfl, rfl, rfl, rfl, rfl, rfl⟩
  split_ifs with hdue
  · refine sat_traced fun now' _ => ?_
    have h := h.silent ⟨.now, now'⟩ ⟨rfl, rfl, rfl, rfl, rfl, rfl⟩
    refine sat_traced ?_
    rintro (err | renewed) hserves
    · exact h.renewal_failed _ _ _ err
    · exact (h.silent ⟨.renew vars.lease now' config.leaseDuration, .ok renewed⟩
        ⟨rfl, rfl, rfl, rfl, rfl, rfl⟩).with_lease (hserves renewed rfl)
  · exact h

/-- A commit that fails stops the worker. -/
theorem Progress.commit_failed (hne : vars.segment ≠ []) (err : StoreError) :
    Stopped config claimed (log ++ [⟨.commit vars.segment, .error err⟩]) vars.lease where
  lease := .inl ⟨any_snoc_false h.renewed rfl, h.same⟩
  settled := any_snoc_false h.settled rfl
  released := (filterMap_snoc_none rfl).trans h.released
  numbers := by
    rw [filterMap_snoc_none rfl]
    exact h.numbers_prefix
  committed := by
    rw [filterMap_snoc_none rfl, filterMap_snoc_none rfl]
    exact h.committed_prefix
  segments := by
    intro segment hsegment
    simp only [filterMap_append, mem_append] at hsegment
    rcases hsegment with hold | hnew
    · exact h.segments segment hold
    · cases mem_singleton.mp hnew
      exact ⟨hne, h.segment_fits⟩

/-- A commit that succeeds empties the segment. -/
theorem Progress.commit_done (hne : vars.segment ≠ []) (value : Unit) :
    Progress config claimed (log ++ [⟨.commit vars.segment, .ok value⟩]) count
      ⟨vars.lease, [], WorkSize.zero⟩ pending where
  same := h.same
  renewed := any_snoc_false h.renewed rfl
  settled := any_snoc_false h.settled rfl
  released := (filterMap_snoc_none rfl).trans h.released
  within := h.within
  numbers := by
    rw [filterMap_snoc_none rfl]
    exact h.numbers
  bundles := by
    rw [filterMap_snoc_none rfl, filterMap_snoc_some (committedOf_commit vars.segment value),
      h.bundles]
    simp
  calls := by
    rw [filterMap_snoc_some (commitOf_commit vars.segment _), h.calls,
      filterMap_snoc_some (committedOf_commit vars.segment value)]
  segments := by
    intro segment hsegment
    simp only [filterMap_append, mem_append] at hsegment
    rcases hsegment with hold | hnew
    · exact h.segments segment hold
    · cases mem_singleton.mp hnew
      exact ⟨hne, h.segment_fits⟩
  measured := ⟨[], Forall₂.nil, rfl, rfl⟩
  fits := WorkSize.not_exceeds_zero _

/-- What the closure `commitSegment` comes to. -/
def CommitEnds (config : BackfillConfig) (claimed : BackfillLease) (count : Nat)
    (pending : List B) (answer : BackfillConfig.Vars B × Option BackfillError)
    (log : List (Event (backfillInterface B))) : Prop :=
  match answer.2 with
  | none => Progress config claimed log count answer.1 pending ∧ answer.1.segment = []
  | some _ => Stopped config claimed log answer.1.lease

/-- Committing a segment, with its error paths. -/
theorem commitSegment_sat : (config.commitSegment vars).Sat backfillWorld
      (LeaseEnds config claimed (CommitEnds config claimed count pending)) log := by
  rw [BackfillConfig.commitSegment]
  cases hsegment : vars.segment with
  | nil => exact ⟨h, hsegment⟩
  | cons first rest =>
    refine leaseEnds_bind (renew_sat h) ?_
    rintro ⟨lease, err | err⟩ log' hrenew
    · have hrenew : Progress config claimed log' count { vars with lease := lease } pending :=
        hrenew
      have hne : ({ vars with lease := lease } : BackfillConfig.Vars B).segment ≠ [] := by
        show vars.segment ≠ []
        rw [hsegment]
        exact cons_ne_nil _ _
      rw [← hsegment]
      refine sat_traced ?_
      rintro (err | value) -
      · exact hrenew.commit_failed hne err
      · exact ⟨hrenew.commit_done hne value, rfl⟩
    · exact hrenew

end

/-- After a commit error the worker only completes or fails. -/
theorem resolve_sat (h : Stopped config claimed log lease) (err : BackfillError) :
    (BackfillConfig.resolveBackfillCommitError lease err : BackfillM B α).Sat backfillWorld
      (LeaseEnds config claimed facts) log := by
  rw [BackfillConfig.resolveBackfillCommitError]
  split_ifs
  · refine sat_traced fun answer _ => ?_
    have h := h.silent ⟨.resolveConflict, answer⟩ ⟨rfl, rfl, rfl, rfl, rfl, rfl⟩
    rcases answer with text | (_ | _)
    · exact h
    · exact h
    · exact h
  · exact h

variable {number : Uint64} {bundleWork combined : WorkSize} {bundle : B}

/-- An admitted bundle is measured, fits alone, and its work is added without
    overflow. -/
theorem admitBundle_ok {segmentWork : WorkSize}
    (h : config.admitBundle number segmentWork bundle = .ok (bundleWork, combined)) :
    measureWork (HasParts.parts bundle) = .ok bundleWork
      ∧ ¬ bundleWork.Exceeds config.segmentLimit
      ∧ combined.rawBytes.val = segmentWork.rawBytes.val + bundleWork.rawBytes.val
      ∧ combined.rows.val = segmentWork.rows.val + bundleWork.rows.val := by
  obtain ⟨work, hwork, h⟩ := bind_eq_ok.mp h
  obtain ⟨_, hlimit, h⟩ := bind_eq_ok.mp h
  obtain ⟨sum, hsum, h⟩ := bind_eq_ok.mp h
  cases pure_eq_ok.mp h
  refine ⟨mapError_eq_ok.mp hwork, failIf_eq_ok.mp hlimit, ?_⟩
  exact WorkSize.add_ok (mapError_eq_ok.mp hsum)

/-- A bundle that fits joins the segment. -/
theorem Progress.join {work : WorkSize} (h : Progress config claimed log count vars [bundle])
    (hmeasure : measureWork (HasParts.parts bundle) = .ok bundleWork)
    (hbytes : work.rawBytes.val = vars.segmentWork.rawBytes.val + bundleWork.rawBytes.val)
    (hrows : work.rows.val = vars.segmentWork.rows.val + bundleWork.rows.val)
    (hfits : ¬ work.Exceeds config.segmentLimit) :
    Progress config claimed log count
      { vars with segment := vars.segment ++ [bundle], segmentWork := work } [] :=
  { h with
    bundles := by
      rw [append_nil]
      exact h.bundles
    measured := by
      obtain ⟨works, hworks, hb, hr⟩ := h.measured
      refine ⟨works ++ [bundleWork], rel_append hworks (.cons hmeasure .nil), ?_, ?_⟩
      · simp [hb, hbytes]
      · simp [hr, hrows]
    fits := hfits }

/-- A segment that would become too large is committed first. -/
theorem flushFull_sat (h : Progress config claimed log count vars [bundle])
    (hmeasure : measureWork (HasParts.parts bundle) = .ok bundleWork)
    (hfits : ¬ bundleWork.Exceeds config.segmentLimit)
    (hbytes : combined.rawBytes.val = vars.segmentWork.rawBytes.val + bundleWork.rawBytes.val)
    (hrows : combined.rows.val = vars.segmentWork.rows.val + bundleWork.rows.val) :
    (config.flushFull vars bundleWork combined).Sat backfillWorld
      (LeaseEnds config claimed fun answer log' => Progress config claimed log' count
        { answer.1 with
          segment := answer.1.segment ++ [bundle]
          segmentWork := answer.2 } []) log := by
  rw [BackfillConfig.flushFull]
  split_ifs with hfull
  · refine leaseEnds_bind (commitSegment_sat h) ?_
    rintro ⟨vars', err | err⟩ log' hcommit
    · obtain ⟨hprogress, hempty⟩ := hcommit
      -- nothing is left in the segment, so its work is zero
      obtain ⟨hzero, hzero'⟩ := hprogress.measured_nil hempty
      exact hprogress.join hmeasure (by rw [hzero, zero_add]) (by rw [hzero', zero_add]) hfits
    · exact resolve_sat hcommit err
  · refine h.join hmeasure hbytes hrows ?_
    rcases not_and_or.mp hfull with hempty | hroom
    · obtain ⟨hzero, hzero'⟩ := h.measured_nil (not_not.mp hempty)
      rw [hzero, zero_add] at hbytes
      rw [hzero', zero_add] at hrows
      rw [WorkSize.Exceeds, Fin.val_injective hbytes, Fin.val_injective hrows]
      exact hfits
    · exact hroom

/-- The next height is fetched. -/
theorem Progress.fetch (h : Progress config claimed log count vars [])
    (hcount : count < rangeCount claimed.range)
    (hnumber : number = claimed.range.start + uint64 count) (bundle : B) :
    Progress config claimed (log ++ [⟨.fetch number, .ok bundle⟩])
      (count + 1) vars [bundle] where
  same := h.same
  renewed := any_snoc_false h.renewed rfl
  settled := any_snoc_false h.settled rfl
  released := (filterMap_snoc_none rfl).trans h.released
  within := hcount
  numbers := by
    rw [filterMap_snoc_some (fetchedOf_fetch number bundle), map_append, h.numbers,
      heights_succ, hnumber]
    rfl
  bundles := by
    rw [filterMap_snoc_some (fetchedOf_fetch number bundle), filterMap_snoc_none rfl,
      map_append, h.bundles, append_nil, append_assoc]
    rfl
  calls := by
    rw [filterMap_snoc_none rfl, filterMap_snoc_none rfl]
    exact h.calls
  segments := by
    rw [filterMap_snoc_none rfl]
    exact h.segments
  measured := h.measured
  fits := h.fits

/-- **One round** fetches the next block and puts it into the segment. -/
theorem backfillBlock_sat (h : Progress config claimed log count vars [])
    (hcount : count < rangeCount claimed.range)
    (hnumber : number = claimed.range.start + uint64 count) :
    (config.backfillBlock number vars).Sat backfillWorld (LeaseEnds config claimed fun vars' log' =>
        Progress config claimed log' (count + 1) vars' []) log := by
  refine leaseEnds_bind (renew_sat h) ?_
  rintro ⟨lease, err | err⟩ log' hrenew
  · have hrenew : Progress config claimed log' count { vars with lease := lease } [] := hrenew
    refine sat_traced ?_
    rintro (text | bundle) -
    · exact (hrenew.silent ⟨.fetch number, .error text⟩
        ⟨rfl, rfl, rfl, rfl, rfl, rfl⟩).stopped
    · have hfetch := hrenew.fetch hcount hnumber bundle
      dsimp only
      cases hadmit : config.admitBundle number vars.segmentWork bundle with
      | error err => exact hfetch.stopped
      | ok works =>
        obtain ⟨bundleWork, combined⟩ := works
        obtain ⟨hmeasure, hfits, hbytes, hrows⟩ := admitBundle_ok hadmit
        show (config.flushFull _ bundleWork combined >>= _).Sat _ _ _
        exact leaseEnds_bind (flushFull_sat hfetch hmeasure hfits hbytes hrows)
          fun _ _ hdone => hdone
  · exact hrenew

/-- **The loop** fetches every block of the range. -/
theorem backfillLoop_sat (rounds : Nat) (h : Progress config claimed log count vars [])
    (hcount : count < rangeCount claimed.range)
    (hrounds : rounds + count = rangeCount claimed.range)
    (hnumber : number = claimed.range.start + uint64 count) :
    (config.backfillLoop rounds number vars).Sat backfillWorld
      (LeaseEnds config claimed fun vars' log' =>
        Progress config claimed log' (rangeCount claimed.range) vars' []) log := by
  induction rounds generalizing log count vars number with
  | zero => omega
  | succ rounds ih =>
    refine leaseEnds_bind (backfillBlock_sat h hcount hnumber) fun vars' log' hround => ?_
    -- renewals keep the range, so the loop stops at the end of the claimed one
    have hrange : vars'.lease.range = claimed.range := (sameLeaseOwner_iff.mp hround.same).2.1
    have hlast := height_last hcount
    rw [← hnumber, ← hrange] at hlast
    split_ifs with hstop
    · rw [← hrange, ← hlast.mp hstop]
      exact hround
    · have hmore : count + 1 ≠ rangeCount claimed.range := by
        rw [← hrange]
        exact fun heq => hstop (hlast.mpr heq)
      refine ih hround (by omega) (by omega) ?_
      rw [hnumber, height_succ]

/-! ## Whole leases -/

/-- The log of a completed range. -/
structure Completed (config : BackfillConfig) (claimed : BackfillLease)
    (log : List (Event (backfillInterface B))) : Prop where
  settled : log.any settles = true
  renewed : log.any renewalFails = false
  released : log.filterMap releaseOf = []
  numbers : (log.filterMap fetchedOf).map Prod.fst = heightsOf claimed.range
  bundles : (log.filterMap fetchedOf).map Prod.snd = (log.filterMap commitOf).flatten
  calls : log.filterMap commitOf = log.filterMap committedOf
  segments : ∀ segment ∈ log.filterMap commitOf, segment ≠ [] ∧ config.Fits segment

/-- A settled completion ends a log whose blocks are all committed. -/
theorem Progress.completed (h : Progress config claimed log (rangeCount claimed.range) vars [])
    (hempty : vars.segment = []) {answer : Except StoreError Unit}
    (hsettles : settles (⟨.complete lease, answer⟩ : Event (backfillInterface B)) = true) :
    Completed config claimed (log ++ [⟨.complete lease, answer⟩]) where
  settled := by simp [hsettles]
  renewed := any_snoc_false h.renewed rfl
  released := (filterMap_snoc_none rfl).trans h.released
  numbers := by
    rw [filterMap_snoc_none rfl]
    exact h.numbers
  bundles := by
    have hbundles := h.bundles
    rw [hempty, append_nil, append_nil] at hbundles
    rw [filterMap_snoc_none rfl, filterMap_snoc_none rfl, h.calls]
    exact hbundles
  calls := by
    rw [filterMap_snoc_none rfl, filterMap_snoc_none rfl]
    exact h.calls
  segments := by
    rw [filterMap_snoc_none rfl]
    exact h.segments

section

variable (config : BackfillConfig) (claimed : BackfillLease)

/-- A worker that ends without an error has committed its range and completed the lease.
    -/
theorem backfillRange_sat : (config.backfillRange claimed : BackfillM B Unit).Sat backfillWorld
      (LeaseEnds config claimed fun _ log => Completed config claimed log) [] := by
  have hstart : Progress config claimed ([] : List (Event (backfillInterface B))) 0
      ⟨claimed, [], WorkSize.zero⟩ [] :=
    ⟨sameLeaseOwner_iff.mpr ⟨rfl, rfl, rfl, rfl⟩, rfl, rfl, rfl, Nat.zero_le _, rfl, rfl, rfl,
      fun _ h => absurd h not_mem_nil, ⟨[], .nil, rfl, rfl⟩, WorkSize.not_exceeds_zero _⟩
  have hfirst : claimed.range.start = claimed.range.start + uint64 0 := by
    apply Fin.val_injective
    rw [Fin.val_add, uint64_val (by omega), add_zero, Nat.mod_eq_of_lt (Fin.isLt _)]
  refine leaseEnds_bind (backfillLoop_sat _ hstart (Nat.succ_pos _) rfl hfirst)
    fun vars log hloop => ?_
  refine leaseEnds_bind (commitSegment_sat hloop) ?_
  rintro ⟨vars', err | err⟩ log' hcommit
  · obtain ⟨hprogress, hempty⟩ := hcommit
    refine sat_traced ?_
    rintro (err | value) -
    · dsimp only
      split_ifs with hlost
      · exact hprogress.completed hempty (decide_eq_true hlost)
      · have hsilent :
            Silent (⟨.complete vars'.lease, .error err⟩ : Event (backfillInterface B)) :=
          ⟨rfl, rfl, rfl, rfl, decide_eq_false hlost, rfl⟩
        exact (hprogress.silent _ hsilent).stopped
    · exact hprogress.completed hempty rfl
  · exact resolve_sat hcommit err

/-- **A whole lease**: the range is completed, or the log of an early return ends with
    the release of the lease that the variable held. -/
theorem processBackfillLease_ends {out : Except BackfillError Unit}
    (hrun : (config.processBackfillLease claimed).Runs backfillWorld.serves [] out log) :
    (out = .ok () ∧ Completed config claimed log)
      ∨ ∃ log' lease answer, Stopped config claimed log' lease
        ∧ log = log' ++ [⟨.release lease, answer⟩] := by
  have hsat :
      (config.processBackfillLease claimed : Prog (backfillInterface B) _ _).Sat backfillWorld
      (fun out log => (out = .ok () ∧ Completed config claimed log)
        ∨ ∃ log' lease answer, Stopped config claimed log' lease
          ∧ log = log' ++ [⟨.release lease, answer⟩]) [] := by
    refine sat_bind.mpr (sat_attempt.mpr ((backfillRange_sat config claimed).mono ?_))
    rintro (exit | value) log' h
    · refine sat_traced fun answer _ => ?_
      obtain ⟨error, lease⟩ := exit
      cases error with
      | none | some err => exact .inr ⟨log', lease, answer, h, rfl⟩
    · exact .inl ⟨rfl, h⟩
  exact hsat.runs hrun

end

end Invariant

/-! ## Results -/

section Results

variable [HasParts B] {H : Type}

theorem owner_ne_empty {deps : LeaseDeps} {lease : BackfillLease}
    (h : validateBackfillLease deps lease = .ok ()) : lease.owner ≠ "" := by
  obtain ⟨_, -, h⟩ := bind_eq_ok.mp h
  obtain ⟨_, -, h⟩ := bind_eq_ok.mp h
  obtain ⟨_, howner, -⟩ := bind_eq_ok.mp h
  intro hempty
  rw [hempty] at howner
  exact failIf_eq_ok.mp howner (.inl (by decide))

/-- The log of an early return with the release at its end. -/
theorem release_log {config : BackfillConfig} {claimed lease : BackfillLease}
    {log : List (Event (backfillInterface B))} (h : Stopped config claimed log lease)
    (answer : Except StoreError Unit) :
    (log ++ [(⟨.release lease, answer⟩ : Event (backfillInterface B))]).filterMap
      releaseOf = [lease]
      ∧ (log ++ [(⟨.release lease, answer⟩ : Event (backfillInterface B))]).any
        settles = false
      ∧ (log ++ [(⟨.release lease, answer⟩ : Event (backfillInterface B))]).any renewalFails
        = log.any renewalFails := by
  have hnew : releaseOf (⟨.release lease, answer⟩ : Event (backfillInterface B))
      = some lease := rfl
  refine ⟨?_, ?_, ?_⟩
  · rw [filterMap_snoc_some hnew, h.released]
    rfl
  · exact any_snoc_false h.settled rfl
  · exact any_snoc rfl

/-- **The claimed lease is released unless a renewal failed.**  Whatever the clock, the
    repository and the source do: a return that no settled completion precedes releases
    the range, owner and token of the claimed lease exactly when no renewal of the run
    failed, and such a release removes the lease from the store while it is held and
    unexpired. -/
theorem lease_released_iff (config : BackfillConfig) {deps : LeaseDeps} {claimed : BackfillLease}
    (hclaimed : validateBackfillLease deps claimed = .ok ()) {out : Except BackfillError Unit}
    {log : List (Event (backfillInterface B))}
    (hrun : (config.processBackfillLease claimed).Runs backfillWorld.serves [] out log) :
    ((log.any settles = false → ∃ released ∈ log.filterMap releaseOf,
        released.range = claimed.range ∧ released.owner = claimed.owner
          ∧ released.token = claimed.token)
      ↔ log.any renewalFails = false)
    ∧ (log.any renewalFails = false → ∀ released ∈ log.filterMap releaseOf,
      ∀ (s : MemoryChain B H) (now : Int), validateBackfillLease deps released = .ok () →
        Store.Holds s claimed now →
        ∃ t, (releaseBackfillRange deps released now).run s = (.ok (), t)
          ∧ t.backfillLeases.lookup claimed.range = none) := by
  rcases processBackfillLease_ends config claimed hrun with
    ⟨-, hdone⟩ | ⟨log', lease, answer, hstopped, rfl⟩
  · refine ⟨⟨fun _ => hdone.renewed, fun _ hopen => ?_⟩, fun _ released hreleased => ?_⟩
    · rw [hdone.settled] at hopen
      cases hopen
    · rw [hdone.released] at hreleased
      exact absurd hreleased not_mem_nil
  · obtain ⟨hrelease, hsettled, hfails⟩ := release_log hstopped answer
    rw [hrelease, hsettled, hfails]
    rcases hstopped.lease with ⟨hnone, hsame⟩ | ⟨hfailed, rfl⟩
    · -- the worker has the claimed lease, or what a renewal made of it
      obtain ⟨hchain, hrange, howner, htoken⟩ := sameLeaseOwner_iff.mp hsame
      refine ⟨⟨fun _ => hnone,
        fun _ _ => ⟨lease, mem_singleton_self _, hrange, howner, htoken⟩⟩,
        fun _ released hreleased s now hvalid hheld => ?_⟩
      rw [mem_singleton.mp hreleased] at hvalid ⊢
      obtain ⟨current, hlook, h1, h2, h3, h4, hlive⟩ := hheld
      refine ⟨_, releaseBackfillRange_held hvalid ⟨current, by rw [hrange]; exact hlook,
        h1.trans hchain.symm, h2.trans hrange.symm, h3.trans howner.symm, h4.trans htoken.symm,
        hlive⟩, ?_⟩
      rw [hrange]
      exact Finmap.lookup_erase _ _
    · -- a failed renewal left the worker with the zero lease, which has no owner
      refine ⟨⟨fun h => ?_, fun h => ?_⟩, fun h => ?_⟩
      · obtain ⟨released, hreleased, -, howner, -⟩ := h rfl
        rw [mem_singleton.mp hreleased] at howner
        exact absurd howner.symm (owner_ne_empty hclaimed)
      · rw [hfailed] at h
        cases h
      · rw [hfailed] at h
        cases h

/-- **The committed segments are the blocks of the range.**  Let `source` be what the
    source served.  When the range is completed, the segments of the commit calls are, one
    after the other, the bundles of the heights of the range in order; every segment is
    non-empty and within both limits; and in every run what has been committed is a prefix
    of that sequence. -/
theorem segments_exact (config : BackfillConfig) (claimed : BackfillLease)
    {out : Except BackfillError Unit} {log : List (Event (backfillInterface B))}
    (hrun : (config.processBackfillLease claimed).Runs backfillWorld.serves [] out log)
    (source : Uint64 → B) (hsource : ∀ p ∈ log.filterMap fetchedOf, p.2 = source p.1) :
    (log.any settles = true →
        (log.filterMap commitOf).flatten = (heightsOf claimed.range).map source)
      ∧ (∀ segment ∈ log.filterMap commitOf, segment ≠ [] ∧ config.Fits segment)
      ∧ (log.filterMap committedOf).flatten <+: (heightsOf claimed.range).map source := by
  have hbundles : (log.filterMap fetchedOf).map Prod.snd
      = ((log.filterMap fetchedOf).map Prod.fst).map source := by
    rw [map_map]
    exact map_congr_left hsource
  rcases processBackfillLease_ends config claimed hrun with
    ⟨-, hdone⟩ | ⟨log', lease, answer, hstopped, rfl⟩
  · rw [hdone.numbers, hdone.bundles] at hbundles
    refine ⟨fun _ => hbundles, hdone.segments, ?_⟩
    rw [← hdone.calls, hbundles]
  · rw [filterMap_snoc_none rfl] at hbundles
    rw [filterMap_snoc_none rfl, filterMap_snoc_none rfl]
    refine ⟨fun hsettled => ?_, hstopped.segments, hstopped.committed.trans ?_⟩
    · rw [any_append, hstopped.settled] at hsettled
      cases hsettled
    · rw [hbundles]
      exact hstopped.numbers.map source

end Results

/-! ## Runs -/

section Runs

/-- A bundle without transactions. -/
def emptyParts : BundleParts := ⟨some (0, 0), 10, [], [], [], [], [], []⟩

instance : HasParts Unit := ⟨fun _ => emptyParts⟩

/-- The defaults. -/
def plainConfig : BackfillConfig := ⟨0, 0, 0⟩

/-- Every chain and every token is accepted. -/
def plainDeps : LeaseDeps := ⟨.ok, fun _ => true⟩

/-- A lease of two heights. -/
def plainLease : BackfillLease := ⟨"1", ⟨5, 6⟩, "worker-0", "token", 1000000000000⟩

/-- A service at one instant, whose renewals and fetches succeed as told. -/
def reply (now : Int) (renews fetches : Bool) :
    (request : BackfillRequest Unit) → BackfillAnswer request
  | .now => now
  | .renew lease now ttl =>
    if renews then .ok { lease with expiresAt := now + ttl }
    else .error ⟨.plain, "connection refused"⟩
  | .fetch _ => if fetches then .ok () else .error "connection refused"
  | .commit _ => .ok ()
  | .complete _ => .ok ()
  | .release _ => .ok ()
  | .resolveConflict => .ok .changed

/-- The service with its log. -/
def replyLogged (now : Int) (renews fetches : Bool) (request : BackfillRequest Unit)
    (log : List (Event (backfillInterface Unit))) :
    BackfillAnswer request × List (Event (backfillInterface Unit)) :=
  (reply now renews fetches request, log ++ [⟨request, reply now renews fetches request⟩])

/-- The replies of this environment are among those that are possible. -/
theorem replyLogged_serves (now : Int) (renews fetches : Bool) (request : BackfillRequest Unit)
    (log : List (Event (backfillInterface Unit))) :
    backfillWorld.serves request log (replyLogged now renews fetches request log).1
      (replyLogged now renews fetches request log).2 := by
  refine ⟨?_, rfl⟩
  cases request with
  | renew lease now' ttl =>
    cases renews with
    | true =>
      rintro _ ⟨⟩
      exact sameLeaseOwner_iff.mpr ⟨rfl, rfl, rfl, rfl⟩
    | false => rintro _ ⟨⟩
  | _ => trivial

/-- A backfill of two blocks with the service at an instant. -/
def backfillRun (now : Int) (renews fetches : Bool) :
    Prog (backfillInterface Unit) BackfillError Unit × List (Event (backfillInterface Unit)) :=
  (plainConfig.processBackfillLease plainLease).advance (replyLogged now renews fetches)
    (fun _ _ => true) 20 []

/-- A fetch that fails: the claimed lease is released. -/
theorem lease_released_iff_fetch : validateBackfillLease plainDeps plainLease = .ok ()
      ∧ (backfillRun 0 true false).2.any renewalFails = false
      ∧ ∃ released ∈ (backfillRun 0 true false).2.filterMap releaseOf,
        released.token = plainLease.token := by
  have hvalid : validateBackfillLease plainDeps plainLease = .ok () := by decide +kernel
  have hresult : (backfillRun 0 true false).1.result = some (.error ⟨.plain,
      "fetch historical block 5: connection refused"⟩) := by decide +kernel
  have hrun := runs_advance (replyLogged_serves 0 true false) 20 hresult
  have hrenewals : (backfillRun 0 true false).2.any renewalFails = false := by decide +kernel
  obtain ⟨released, hreleased, -, -, htoken⟩ :=
    (lease_released_iff (H := Unit) plainConfig hvalid hrun).1.mpr hrenewals (by decide +kernel)
  exact ⟨hvalid, hrenewals, released, hreleased, htoken⟩

/-- A renewal that fails: the zero lease is released and the claimed one is not. -/
theorem claimed_lease_not_released : validateBackfillLease plainDeps plainLease = .ok ()
      ∧ (∃ out, (plainConfig.processBackfillLease plainLease :
          Prog (backfillInterface Unit) BackfillError Unit).Runs backfillWorld.serves [] out
          (backfillRun 990000000000 false true).2)
      ∧ (backfillRun 990000000000 false true).2.any settles = false
      ∧ (backfillRun 990000000000 false true).2.filterMap releaseOf = [zeroLease]
      ∧ ¬ ∃ released ∈ (backfillRun 990000000000 false true).2.filterMap releaseOf,
        released.range = plainLease.range ∧ released.owner = plainLease.owner
          ∧ released.token = plainLease.token := by
  have hreleases : (backfillRun 990000000000 false true).2.filterMap releaseOf = [zeroLease] := by
    decide +kernel
  have hresult : (backfillRun 990000000000 false true).1.result = some (.error ⟨.store .plain,
      "renew backfill range 5-6: connection refused"⟩) := by decide +kernel
  refine ⟨by decide +kernel,
    ⟨_, runs_advance (replyLogged_serves 990000000000 false true) 20 hresult⟩,
    by decide +kernel, hreleases, ?_⟩
  rw [hreleases]
  rintro ⟨released, hreleased, -, howner, -⟩
  rw [mem_singleton.mp hreleased] at howner
  exact absurd howner (by decide)

/-- Two blocks that fit into one segment. -/
theorem segments_exact_two : (backfillRun 0 true true).2.any settles = true
      ∧ ((backfillRun 0 true true).2.filterMap commitOf).flatten
        = (heightsOf plainLease.range).map fun _ => () := by
  have hsettled : (backfillRun 0 true true).2.any settles = true := by decide +kernel
  have hresult : (backfillRun 0 true true).1.result = some (.ok ()) := by decide +kernel
  have hrun := runs_advance (replyLogged_serves 0 true true) 20 hresult
  exact ⟨hsettled, (segments_exact plainConfig plainLease hrun (fun _ => ()) fun _ _ => rfl).1
    hsettled⟩

end Runs

end Syncer
