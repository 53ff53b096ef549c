import Etherview.MapUpdate
import Etherview.StoreRepository

/-! # The in-memory repository

    `MemoryRepository` of `internal/store/memory.go` and `coverage_memory.go`, for
    one chain.  A method is a `Tx` over the chain's state: the checks and the
    mutations stand in the order of the source, and a mutation made before a
    failure would stay.

    Times of checkpoints, finality and journal entries are left out (no method
    reads them).  A chain the repository has not seen yet is the empty chain. -/

namespace Store

open IntervalSet Transact MapUpdate Prod

variable {B H : Type}

/-- The state of one chain.  Blocks and journals are keyed by hash (the text key
    of the source determines the hash), leases by their range. -/
structure MemoryChain (B H : Type) where
  blocks : Map H B
  canonical : Map Uint64 H
  checkpoints : Map String (Checkpoint H)
  finality : Option (Finality H)
  journals : Map H (List (JournalEntry H))
  configuredStart : Option Uint64
  coverage : List BlockRange
  backfillLeases : Map BlockRange BackfillLease

/-- A chain without any record. -/
def MemoryChain.empty : MemoryChain B H where
  blocks := ∅
  canonical := ∅
  checkpoints := ∅
  finality := none
  journals := ∅
  configuredStart := none
  coverage := []
  backfillLeases := ∅

/-- A repository method on one chain. -/
abbrev RepoM (B H : Type) := Tx (MemoryChain B H) StoreError

section Memory

variable [DecidableEq H] [ChainBundle B H] [ToString H]

/-! ## Reads -/

/-- The canonical reference at a height; a canonical hash without its block is an error.
    -/
def memoryCanonicalRef (chain : MemoryChain B H) (number : Uint64) :
    Except StoreError (Option (BlockRef H)) :=
  match chain.canonical.lookup number with
  | none => .ok none
  | some hash =>
    match chain.blocks.lookup hash with
    | none => .error (.plain s!"canonical block {number.val} has no stored bundle")
    | some bundle => do
        let reference ← refFromBundle bundle
        return some reference

/-- The canonical reference at the greatest height. -/
def memoryTip (chain : MemoryChain B H) : Except StoreError (Option (BlockRef H)) :=
  if h : chain.canonical.keys.Nonempty then
    memoryCanonicalRef chain (chain.canonical.keys.max' h)
  else .ok none

/-- Some height has this hash. -/
def memoryHashCanonical (chain : MemoryChain B H) (hash : H) : Bool :=
  decide (chain.canonical.keys.filter
    (fun number => chain.canonical.lookup number = some hash)).Nonempty

/-- A copy of a stored block. -/
def bundleByHash (chain : MemoryChain B H) (hash : H) : Except StoreError (Option B) :=
  match chain.blocks.lookup hash with
  | none => .ok none
  | some bundle => do
      let copy ← cloneBundle bundle
      return some copy

/-- The finalized height, when one is stored. -/
def MemoryChain.finalizedNumber (chain : MemoryChain B H) : Option Uint64 :=
  chain.finality.bind fun finality => finality.finalized.map BlockRef.number

/-- The coverage view: the ranges, whether they start at the configured height, and the
    end of the first one. -/
def memoryCoverageLocked (chain : MemoryChain B H) : Except StoreError (CoreCoverage H) :=
  match chain.configuredStart with
  | none => .error (.sentinel .indexNotConfigured)
  | some start => do
      validateNormalizedCoverageRanges chain.coverage
      match chain.coverage.head?, chain.coverage.getLast? with
      | some first, some last =>
        match ← memoryCanonicalRef chain last.stop with
        | none => .error (.plain "coverage highest canonical block is missing")
        | some highest =>
          -- only a first range from the configured start is contiguous
          if first.start = start then
            match ← memoryCanonicalRef chain first.stop with
            | none => .error (.plain "coverage checkpoint canonical block is missing")
            | some contiguous =>
              return { configuredStart := start, ranges := chain.coverage,
                       contiguous := some contiguous, highest := some highest }
          else
            return { configuredStart := start, ranges := chain.coverage,
                     contiguous := none, highest := some highest }
      | _, _ =>
        return { configuredStart := start, ranges := chain.coverage,
                 contiguous := none, highest := none }

/-- `Coverage`: absent until the index is configured. -/
def coverage (chain : MemoryChain B H) : Except StoreError (Option (CoreCoverage H)) :=
  match chain.configuredStart with
  | none => .ok none
  | some _ => do
      let current ← memoryCoverageLocked chain
      return some current

/-! ## Checks -/

/-- A checkpoint of the stage must not move back, unless that is allowed, nor change its
    hash at one height. -/
def checkMemoryCheckpoint (chain : MemoryChain B H) (checkpoint : Checkpoint H)
    (allowRegression : Bool) : Except StoreError Unit :=
  match chain.checkpoints.lookup checkpoint.stage, allowRegression with
  | some previous, false => do
      failIf (checkpoint.contiguousThrough < previous.contiguousThrough)
        (.sentinel .checkpointRegress)
      failIf (checkpoint.contiguousThrough = previous.contiguousThrough ∧
          checkpoint.blockHash ≠ previous.blockHash)
        (.detailed .checkpointRegress s!"hash changed at height {checkpoint.contiguousThrough.val}")
  | _, _ => .ok ()

/-- The block below a refreshed one is its parent. -/
def validateMemoryRefreshParent (chain : MemoryChain B H) (reference : BlockRef H) :
    Except StoreError Unit :=
  if reference.number = 0 then .ok ()
  else do
    match ← memoryCanonicalRef chain (reference.number - 1) with
    | some parent =>
      failIf (reference.parentHash ≠ parent.hash)
        (.conflict (s!"block {reference.number.val} parent {reference.parentHash} does not " ++
          s!"match canonical block {parent.number.val} hash {parent.hash}"))
    | none =>
      failIf (chain.canonical.keys.filter (· < reference.number)).Nonempty
        (.conflict s!"canonical gap before block {reference.number.val}")

/-- A marker is not cleared, does not move back and keeps its hash at its height. -/
def checkMarkerRegression (name : String) (previous next : Option (BlockRef H)) :
    Except StoreError Unit :=
  match previous, next with
  | none, _ => .ok ()
  | some _, none => .error (.detailed .finalityRegress s!"{name} marker was cleared")
  | some previous, some next => do
      failIf (next.number < previous.number) (.detailed .finalityRegress
          s!"{name} height moved from {previous.number.val} to {next.number.val}")
      failIf (next.number = previous.number ∧ next.hash ≠ previous.hash)
        (.detailed .finalityRegress s!"{name} hash changed at height {next.number.val}")

/-- `checkFinalityRegression`; the order of the two markers only decides which
    error is reported. -/
def checkFinalityRegression (previous next : Finality H) : Except StoreError Unit := do
  checkMarkerRegression "safe" previous.safe next.safe
  checkMarkerRegression "finalized" previous.finalized next.finalized

/-- The two markers of one update agree with each other. -/
def validateFinality (finality : Finality H) : Except StoreError Unit :=
  match finality.finalized, finality.safe with
  | some finalized, some safe => do
      failIf (finalized.number > safe.number) (.plain "finalized height exceeds safe height")
      failIf (finalized.number = safe.number ∧ finalized.hash ≠ safe.hash)
        (.plain "safe and finalized hashes differ at the same height")
  | _, _ => .ok ()

/-- A marker names a canonical block. -/
def checkMarkerCanonical (chain : MemoryChain B H) (name : String)
    (reference : Option (BlockRef H)) : Except StoreError Unit :=
  match reference with
  | none => .ok ()
  | some reference => do
      let canonical ← memoryCanonicalRef chain reference.number
      failIf (canonical.map BlockRef.hash ≠ some reference.hash)
        (.conflict s!"{name} block is not canonical")

/-- The extension check of `CommitCanonical`. -/
def checkExtendsTip (tip : Option (BlockRef H)) (reference : BlockRef H) : Except StoreError Unit :=
  match tip with
  | none => .ok ()
  | some tip =>
    failIf (reference.number ≠ tip.number + 1 ∨ reference.parentHash ≠ tip.hash)
      (.conflict "block does not extend canonical tip")

/-! ## Mutations -/

/-- Stores a checkpoint under its stage. -/
def setMemoryCheckpoint (checkpoint : Checkpoint H) (chain : MemoryChain B H) : MemoryChain B H :=
  { chain with checkpoints := chain.checkpoints.insert checkpoint.stage checkpoint }

/-- Forgets the core checkpoint. -/
def deleteCoreCheckpoint (chain : MemoryChain B H) : MemoryChain B H :=
  { chain with checkpoints := chain.checkpoints.erase coreCheckpoint }

/-- Store one owned bundle. -/
def putBlock (reference : BlockRef H) (copy : B) (chain : MemoryChain B H) : MemoryChain B H :=
  { chain with blocks := chain.blocks.insert reference.hash copy }

/-- Make one block canonical. -/
def putCanonical (reference : BlockRef H) (chain : MemoryChain B H) : MemoryChain B H :=
  { chain with canonical := chain.canonical.insert reference.number reference.hash }

/-- The entries of one hash with their flag set. -/
def setFlags (canonical : Bool) (entries : List (JournalEntry H)) : List (JournalEntry H) :=
  entries.map fun entry => { entry with canonical := canonical }

/-- `markMemoryJournals` for each block of a branch. -/
def markMemoryJournals (references : List (BlockRef H)) (canonical : Bool)
    (chain : MemoryChain B H) : MemoryChain B H :=
  { chain with
    journals := adjustAll [] (setFlags canonical) BlockRef.hash references chain.journals }

/-- The block map with the owned bundles of a branch added. -/
def nextBlocks (chain : MemoryChain B H) (items : List (BlockRef H × B)) : Map H B :=
  insertAll (fun p => p.1.hash) snd items chain.blocks

/-- The canonical map with one branch removed and another one added. -/
def nextCanonical (chain : MemoryChain B H) (detached : List (BlockRef H))
    (items : List (BlockRef H × B)) : Map Uint64 H :=
  insertAll (fun p => p.1.number) (fun p => p.1.hash) items
    (eraseAll BlockRef.number detached chain.canonical)

/-- The state with blocks, canonical map and coverage replaced; the source calls
    it the shadow while it only reads it. -/
def shadowChain (chain : MemoryChain B H) (detached : List (BlockRef H))
    (items : List (BlockRef H × B)) (ranges : List BlockRange) : MemoryChain B H :=
  { chain with
    blocks := nextBlocks chain items
    canonical := nextCanonical chain detached items
    coverage := ranges }

/-! ## Methods -/

/-- Commits one block on top of the tip, or again where it is canonical already, with a
    checkpoint. -/
def commitCanonical (bundle : B) (checkpoint : Checkpoint H) : RepoM B H Unit := do
  let copy ← cloneBundle bundle
  let reference ← refFromBundle copy
  validateCheckpoint checkpoint reference
  let chain ← Tx.get
  checkMemoryCheckpoint chain checkpoint false
  match chain.canonical.lookup reference.number with
  | some existingHash => do
      failIf (existingHash ≠ reference.hash) (StoreError.conflict
          s!"height {reference.number.val} is already canonical with another hash")
      Tx.modify (putBlock reference copy)
      Tx.modify (setMemoryCheckpoint checkpoint)
  | none => do
      let tip ← memoryTip chain
      checkExtendsTip tip reference
      Tx.modify (putBlock reference copy)
      Tx.modify (putCanonical reference)
      Tx.modify (setMemoryCheckpoint checkpoint)

/-- Rewrites the facts of a canonical block. -/
def refreshCanonical (bundle : B) (options : RefreshOptions) : RepoM B H Unit := do
  let copy ← cloneBundle bundle
  let reference ← refFromBundle copy
  let chain ← Tx.get
  failIf (chain.canonical.lookup reference.number ≠ some reference.hash) (StoreError.conflict
      s!"block {reference.number.val} hash {reference.hash} is not canonical")
  validateMemoryRefreshParent chain reference
  failIf (options.allowFinalized = false ∧
      chain.finalizedNumber.any (fun finalized => reference.number ≤ finalized) = true)
    (StoreError.detailed .finalizedRefresh
      (s!"block {reference.number.val} is at or below finalized height " ++
        s!"{(chain.finalizedNumber.getD 0).val}"))
  Tx.modify fun chain => { chain with journals := chain.journals.erase reference.hash }
  Tx.modify (putBlock reference copy)

/-- The tip checks of `ApplyReorg`. -/
def checkReorgTip (chain : MemoryChain B H) (reorg : Reorg B H) : Except StoreError Unit := do
  match ← memoryTip chain with
  | none => .error (.conflict "canonical chain is empty")
  | some tip =>
    failIf (∃ top ∈ reorg.detached.val.head?, tip.hash ≠ top.hash)
      (.conflict "detached branch does not start at canonical tip")

/-- The coverage `ApplyReorg` computes on a configured index. -/
def reorgRanges (chain : MemoryChain B H) (reorg : Reorg B H) :
    Except StoreError (List BlockRange) :=
  match chain.configuredStart with
  | none => .ok chain.coverage
  | some _ => coverageRangesAfterReorg chain.coverage reorg

/-- The checkpoint `ApplyReorg` writes: the requested one, or on a configured
    index the one the new coverage implies. -/
def reorgCheckpoint (shadow : MemoryChain B H) (reorg : Reorg B H) :
    Except StoreError (Option (Checkpoint H)) :=
  match shadow.configuredStart with
  | none => .ok (some reorg.checkpoint)
  | some _ => do
      let coverage ← memoryCoverageLocked shadow
      return coverage.contiguous.map newCoreCheckpoint

/-- Write a checkpoint, or drop the core one when there is none. -/
def writeCheckpoint (checkpoint : Option (Checkpoint H)) : RepoM B H Unit := match checkpoint with
  | none => Tx.modify deleteCoreCheckpoint
  | some checkpoint => Tx.modify (setMemoryCheckpoint checkpoint)

/-- Takes a branch from the tip off and puts another one on its ancestor. -/
def applyReorg (argument : Reorg B H) : RepoM B H Unit := do
  let (reorg, items) ← ownReorg argument
  let chain ← Tx.get
  let ancestor ← memoryCanonicalRef chain reorg.ancestor.number
  failIf (ancestor.map BlockRef.hash ≠ some reorg.ancestor.hash)
    (StoreError.conflict "common ancestor is not canonical")
  checkReorgTip chain reorg
  checkAll (fun reference =>
    failIf (chain.canonical.lookup reference.number ≠ some reference.hash)
      (StoreError.conflict s!"detached block {reference.number.val} is not canonical"))
    reorg.detached.val
  failIf (chain.finalizedNumber.any (fun finalized => reorg.ancestor.number < finalized) = true)
    (StoreError.conflict "reorg ancestor is below finalized height")
  let nextRanges ← reorgRanges chain reorg
  -- computed on a copy, so that an error below leaves the chain as it is
  let shadow := shadowChain chain reorg.detached.val items nextRanges
  let checkpoint ← reorgCheckpoint shadow reorg
  Tx.modify fun chain =>
    { chain with blocks := shadow.blocks, canonical := shadow.canonical }
  Tx.modify fun chain =>
    if chain.configuredStart = none then chain else { chain with coverage := nextRanges }
  Tx.modify (markMemoryJournals reorg.detached.val false)
  Tx.modify (markMemoryJournals (items.map Prod.fst) true)
  writeCheckpoint checkpoint

/-- The configured start, or the error of an index without one. -/
def requireConfigured (chain : MemoryChain B H) : Except StoreError Uint64 :=
  match chain.configuredStart with
  | none => .error (.sentinel .indexNotConfigured)
  | some start => .ok start

/-- A segment block against the canonical block at its height. -/
def checkSegmentHeight (chain : MemoryChain B H) (reference : BlockRef H) :
    Except StoreError Unit := do
  let existing ← memoryCanonicalRef chain reference.number
  failIf (∃ e ∈ existing, e.hash ≠ reference.hash ∨ e.parentHash ≠ reference.parentHash)
    (.conflict s!"height {reference.number.val} already maps to another canonical identity")

/-- The block below a segment, if there is one, is its parent. -/
def checkSegmentLower (chain : MemoryChain B H) (first : BlockRef H) : Except StoreError Unit :=
  if first.number > 0 then do
    let lower ← memoryCanonicalRef chain (first.number - 1)
    failIf (∃ l ∈ lower, first.parentHash ≠ l.hash)
      (.conflict "segment parent does not match lower canonical boundary")
  else .ok ()

/-- The block above a segment, if there is one, is its child. -/
def checkSegmentUpper (chain : MemoryChain B H) (last : BlockRef H) : Except StoreError Unit :=
  if last.number < maxUint64 then do
    let upper ← memoryCanonicalRef chain (last.number + 1)
    failIf (∃ u ∈ upper, u.parentHash ≠ last.hash)
      (.conflict "upper canonical boundary does not descend from segment")
  else .ok ()

/-- The first and the last reference of a segment. -/
def segmentEnds (items : List (BlockRef H × B)) : Except StoreError (BlockRef H × BlockRef H) :=
  match items.head?, items.getLast? with
  | some first, some last => .ok (first.1, last.1)
  | _, _ => .error .indexOutOfRange

/-- The checkpoint a segment or a replacement writes, when coverage reaches the
    configured start. -/
def segmentCheckpoint (chain : MemoryChain B H) (coverage : CoreCoverage H)
    (allowRegression : Bool) : Except StoreError (Option (Checkpoint H)) :=
  match coverage.contiguous with
  | none => .ok none
  | some contiguous => do
      checkMemoryCheckpoint chain (newCoreCheckpoint contiguous) allowRegression
      return some (newCoreCheckpoint contiguous)

/-- Writes a checkpoint where there is one and leaves an old one alone otherwise. -/
def writeCheckpointIfAny (checkpoint : Option (Checkpoint H)) : RepoM B H Unit :=
  match checkpoint with
  | none => pure ()
  | some checkpoint => Tx.modify (setMemoryCheckpoint checkpoint)

/-- Commits a parent-linked segment into a gap of the coverage. -/
def commitCanonicalSegment (bundles : List B) : RepoM B H (CoreCoverage H) := do
  let items ← validateCanonicalSegment bundles
  let chain ← Tx.get
  let start ← requireConfigured chain
  let (first, last) ← segmentEnds items
  failIf (first.number < start)
    (StoreError.conflict s!"segment starts before configured height {start.val}")
  checkAll (checkSegmentHeight chain) (items.map Prod.fst)
  checkSegmentLower chain first
  checkSegmentUpper chain last
  let nextRanges ← normalizeCoverageRanges (chain.coverage ++ [⟨first.number, last.number⟩])
  let shadow := shadowChain chain [] items nextRanges
  let coverage ← memoryCoverageLocked shadow
  let checkpoint ← segmentCheckpoint chain coverage false
  Tx.modify fun chain =>
    { chain with blocks := shadow.blocks, canonical := shadow.canonical,
                 coverage := shadow.coverage }
  writeCheckpointIfAny checkpoint
  return coverage

/-- The tip check of `ReplaceHighestCanonicalSegment`. -/
def checkReplacementTip (chain : MemoryChain B H)
    (replacement : SparseCanonicalReplacement B H) : Except StoreError Unit := do
  let tip ← memoryTip chain
  match tip, replacement.detached.val.head? with
  | none, _ => .error (.conflict "replacement range is not the canonical tip")
  | some tip, none =>
    .error (if tip.number ≠ replacement.range.stop then
      .conflict "replacement range is not the canonical tip" else .indexOutOfRange)
  | some tip, some top =>
    failIf (tip.number ≠ replacement.range.stop ∨ tip.hash ≠ top.hash)
      (.conflict "replacement range is not the canonical tip")

/-- A detached block of a replacement against the canonical block at its height
    (`sameBlockIdentity`). -/
def checkReplacementDetached (chain : MemoryChain B H) (detached : BlockRef H) :
    Except StoreError Unit := do
  let canonical ← memoryCanonicalRef chain detached.number
  failIf (canonical ≠ some detached)
    (.conflict s!"detached block {detached.number.val} is not canonical")

/-- A replacement detaches nothing at or below the finalized height. -/
def checkReplacementFinality (chain : MemoryChain B H)
    (replacement : SparseCanonicalReplacement B H) : Except StoreError Unit :=
  match chain.finalizedNumber with
  | none => .ok ()
  | some finalized => do
      failIf (∃ ancestor ∈ replacement.ancestor, ancestor.number < finalized)
        (.conflict "replacement ancestor is below finalized height")
      failIf (replacement.ancestor = none ∧ replacement.range.start ≤ finalized)
        (.conflict "replacement starts at or below finalized height")

/-- An attached height above the old range must be free. -/
def checkReplacementAttached (chain : MemoryChain B H)
    (replacement : SparseCanonicalReplacement B H) (reference : BlockRef H) :
    Except StoreError Unit :=
  failIf (¬ (reference.number ≤ replacement.range.stop ∨ replacement.ancestor ≠ none) ∧
      reference.number ∈ chain.canonical)
    (.conflict s!"attached height {reference.number.val} is already canonical")

/-- The number of canonical heights above a height. -/
def canonicalAbove (chain : MemoryChain B H) (height : Uint64) : Nat :=
  (chain.canonical.keys.filter (height < ·)).card

/-- Replaces the highest disconnected range, or the blocks above a common ancestor, by
    another branch. -/
def replaceHighestCanonicalSegment (replacement : SparseCanonicalReplacement B H) :
    RepoM B H (CoreCoverage H) := do
  let items ← validateSparseCanonicalReplacement replacement
  let chain ← Tx.get
  let start ← requireConfigured chain
  validateHighestDisconnectedRange chain.coverage start replacement.range
  checkReplacementTip chain replacement
  checkAll (checkReplacementDetached chain) replacement.detached.val
  failIf (∃ ancestor ∈ replacement.ancestor,
      canonicalAbove chain ancestor.number ≠ replacement.detached.val.length)
    (StoreError.conflict ("generalized replacement does not detach every canonical block " ++
      "above its ancestor"))
  checkReplacementFinality chain replacement
  checkAll (checkReplacementAttached chain replacement) (items.map Prod.fst)
  let nextRanges ← coverageRangesAfterSparseReplacement chain.coverage replacement
    (items.map Prod.fst)
  -- computed on a copy, so that an error below leaves the chain as it is
  let shadow := shadowChain chain replacement.detached.val items nextRanges
  let coverage ← memoryCoverageLocked shadow
  let checkpoint ← segmentCheckpoint chain coverage replacement.ancestor.isSome
  Tx.modify fun chain =>
    { chain with blocks := shadow.blocks, canonical := shadow.canonical,
                 coverage := shadow.coverage }
  Tx.modify (markMemoryJournals replacement.detached.val false)
  Tx.modify (markMemoryJournals (items.map Prod.fst) true)
  writeCheckpointIfAny checkpoint
  return coverage

/-- The loop of `memoryCanonicalReferences` over the sorted heights. -/
def memoryCanonicalReferencesLoop (chain : MemoryChain B H) :
    List Uint64 → Except StoreError (List (BlockRef H))
  | [] => .ok []
  | number :: rest => do
      match ← memoryCanonicalRef chain number with
      | none => .error (.plain s!"canonical block {number.val} disappeared")
      | some reference => do
          let others ← memoryCanonicalReferencesLoop chain rest
          return reference :: others

/-- The canonical references by increasing height. -/
def memoryCanonicalReferences (chain : MemoryChain B H) : Except StoreError (List (BlockRef H)) :=
  memoryCanonicalReferencesLoop chain (sortedKeys chain.canonical)

/-- The clean-up of a failed `ConfigureIndex`. -/
def resetIndex {α : Type} (err : StoreError) : RepoM B H α := do
  Tx.modify fun chain => { chain with configuredStart := none, coverage := [] }
  Tx.throw err

/-- The checkpoint a fresh configuration implies, read from the configured state. -/
def configuredCheckpoint : RepoM B H (Option (Checkpoint H)) := do
  let chain ← Tx.get
  let coverage ← memoryCoverageLocked chain
  segmentCheckpoint chain coverage true

/-- `ConfigureIndex`: the state is changed first and restored on failure. -/
def configureIndex (configuredStart : Uint64) : RepoM B H Unit := do
  let chain ← Tx.get
  match chain.configuredStart with
  | some stored =>
    failIf (stored ≠ configuredStart) (StoreError.detailed .indexConfigurationMismatch
        s!"stored={stored.val} requested={configuredStart.val}")
  | none => do
      let references ← memoryCanonicalReferences chain
      let ranges ← coverageRangesFromRefs references configuredStart
      Tx.modify fun chain =>
        { chain with configuredStart := some configuredStart, coverage := ranges }
      let checkpoint ← Tx.onError configuredCheckpoint resetIndex
      writeCheckpoint checkpoint

/-- The regression check against the stored markers. -/
def checkStoredFinality (chain : MemoryChain B H) (finality : Finality H) :
    Except StoreError Unit :=
  match chain.finality with
  | none => .ok ()
  | some previous => checkFinalityRegression previous finality

/-- Stores the two finality markers. -/
def updateFinality (finality : Finality H) : RepoM B H Unit := do
  validateFinality finality
  let chain ← Tx.get
  checkMarkerCanonical chain "safe" finality.safe
  checkMarkerCanonical chain "finalized" finality.finalized
  checkStoredFinality chain finality
  Tx.modify fun chain => { chain with finality := some finality }

/-- The entries stored for a hash. -/
def MemoryChain.entries (chain : MemoryChain B H) (hash : H) : List (JournalEntry H) :=
  (chain.journals.lookup hash).getD []

/-- Appends a journal entry to a stored block, once for each stage and sequence number. -/
def appendJournal (entry : JournalEntry H) : RepoM B H Unit := do
  failIf (entry.stage = "") (StoreError.plain "journal stage is empty")
  failIf (entry.payload.valid = false) (StoreError.plain "journal payload is not valid JSON")
  let chain ← Tx.get
  failIf (entry.blockHash ∉ chain.blocks) (StoreError.conflict "journal block is unknown")
  failIf (∃ existing ∈ chain.entries entry.blockHash,
      existing.stage = entry.stage ∧ existing.sequence = entry.sequence)
    (StoreError.conflict "duplicate journal sequence")
  Tx.modify fun chain =>
    { chain with
      journals := chain.journals.insert entry.blockHash (chain.entries entry.blockHash ++
        [{ entry with canonical := memoryHashCanonical chain entry.blockHash }]) }

end Memory

end Store
