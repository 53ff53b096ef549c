import Etherview.Interaction
import Etherview.StoreCalls

/-! # The canonicalizer

    `Canonicalizer` of `internal/indexer/canonicalizer.go` as a program over the
    repository and the block source.  Every repository call is one request, in the
    order of the source, so that other lanes may act between any two of them.

    The loops are structural: the ancestry walk on the parent fetches that are left,
    the loops over heights on their number of iterations.  The clock of checkpoints
    is left out.  A nil receiver and a nil repository are not modelled. -/

namespace Indexer

open Store Interaction Transact IntervalSet Prod

/-! ## Errors -/

/-- What `errors.Is` can tell about an error. -/
inductive Cause where
  | gap
  | staleHead
  | noCommonAncestor
  | reorgTooDeep
  | finalizedReorg
  | sourceInconsistent
  | store (kind : ErrorKind)
  | plain
  | panic
deriving DecidableEq, Repr

/-- The text of a sentinel. -/
def Cause.text : Cause → String
  | .gap => "candidate head does not connect to indexed coverage"
  | .staleHead => "candidate head is behind the canonical tip"
  | .noCommonAncestor => "no common canonical ancestor found"
  | .reorgTooDeep => "reorg exceeds configured maximum depth"
  | .finalizedReorg => "reorg would cross finalized history"
  | .sourceInconsistent => "ancestor source returned an inconsistent chain"
  | .store kind => kind.text
  | .plain => ""
  | .panic => "runtime error"

/-- An error value with its message. -/
structure IndexError where
  cause : Cause
  text : String
deriving DecidableEq, Repr

namespace IndexError

/-- A sentinel with a detail after it. -/
def detailed (cause : Cause) (detail : String) : IndexError :=
  ⟨cause, cause.text ++ ": " ++ detail⟩

/-- An error that wraps no sentinel. -/
def plain (text : String) : IndexError := ⟨.plain, text⟩

/-- A repository error passed on as it is. -/
def ofStore (err : StoreError) : IndexError := ⟨.store err.kind, err.text⟩

/-- A repository error with a context before it. -/
def storeContext (context : String) (err : StoreError) : IndexError :=
  ⟨.store err.kind, context ++ ": " ++ err.text⟩

/-- An error with a context before it. -/
def wrap (context : String) (err : IndexError) : IndexError :=
  { err with text := context ++ ": " ++ err.text }

end IndexError

/-- The value of an option, or an error. -/
def require {α : Type} (x : Option α) (err : IndexError) : Except IndexError α := match x with
  | none => .error err
  | some value => .ok value

/-- A slice; a longer list cannot be allocated. -/
def makeSlice {α : Type} (l : List α) : Except IndexError (Slice α) :=
  if h : l.length < 9223372036854775808 then .ok ⟨l, h⟩
  else .error (.detailed .panic "makeslice: len out of range")

/-! ## Requests -/

variable {B H : Type}

/-- The repository calls and the reads of the block sources: the parent lookups of the
    canonicalizer, where `head` selects `HeadSource`, and the reads of the live poll. -/
inductive Request (B H : Type) where
  | canonicalTip
  | canonicalBlock (number : Uint64)
  | coverage
  | finality
  | bundleByHash (hash : H)
  | call (call : Call B H)
  | source (head : Bool) (hash : H)
  | sourceHead
  | sourceBlock (number : Uint64)
  | sourceFinality

/-- What each request is answered with. -/
@[reducible] def Answer : Request B H → Type
  | .canonicalTip => Except StoreError (Option (BlockRef H))
  | .canonicalBlock _ => Except StoreError (Option (BlockRef H))
  | .coverage => Except StoreError (Option (CoreCoverage H))
  | .finality => Except StoreError (Option (Finality H))
  | .bundleByHash _ => Except StoreError (Option B)
  | .call _ => Except StoreError Unit
  | .source _ _ => Except String (Option B)
  | .sourceHead => Except String Uint64
  | .sourceBlock _ => Except String B
  | .sourceFinality => Except String (Option (BlockRef H) × Option (BlockRef H))

/-- The interface of the canonicalizer and of the live poll. -/
@[reducible] def interface (B H : Type) : Interface where
  Request := Request B H
  Answer := Answer

/-- A program of the indexer. -/
abbrev IndexM (B H : Type) := Prog (interface B H) IndexError

/-- Reads the tip of the canonical chain. -/
def canonicalTip (context : String) : IndexM B H (Option (BlockRef H)) :=
  Prog.query .canonicalTip id (.storeContext context)

/-- Reads the canonical reference at a height. -/
def canonicalBlock (number : Uint64) (context : String) : IndexM B H (Option (BlockRef H)) :=
  Prog.query (.canonicalBlock number) id (.storeContext context)

/-- `Coverage`. -/
def readCoverage (context : String) : IndexM B H (Option (CoreCoverage H)) :=
  Prog.query .coverage id (.storeContext context)

/-- `Finality`. -/
def readFinality (context : String) : IndexM B H (Option (Finality H)) :=
  Prog.query .finality id (.storeContext context)

/-- `BundleByHash` of the repository. -/
def storedBundle (hash : H) (context : String) : IndexM B H (Option B) :=
  Prog.query (.bundleByHash hash) id (.storeContext context)

/-- `BundleByHash` of a block source. -/
def sourceBundle (head : Bool) (hash : H) (context : String) : IndexM B H (Option B) :=
  Prog.query (.source head hash) id fun text => .plain (context ++ ": " ++ text)

/-- `Head` of the block source. -/
def sourceHead (context : String) : IndexM B H Uint64 :=
  Prog.query .sourceHead id fun text => .plain (context ++ ": " ++ text)

/-- `BundleByNumber` of the block source. -/
def sourceBlock (number : Uint64) (context : String) : IndexM B H B :=
  Prog.query (.sourceBlock number) id fun text => .plain (context ++ ": " ++ text)

/-- `Finality` of the block source: the safe and the finalized block. -/
def sourceFinality (context : String) : IndexM B H (Option (BlockRef H) × Option (BlockRef H)) :=
  Prog.query .sourceFinality id fun text => .plain (context ++ ": " ++ text)

/-- A state-changing repository call. -/
def callRepository (call : Call B H) (wrap : StoreError → IndexError) : IndexM B H Unit :=
  Prog.query (.call call) id wrap

/-! ## The canonicalizer -/

/-- The fields of the source; `configuredReorgDepth` is `MaxReorgDepth`, and the two
    flags tell whether `Source` and `HeadSource` are set. -/
structure Canonicalizer where
  chainID : String
  startBlock : Uint64
  configuredReorgDepth : Uint64
  hasSource : Bool
  hasHeadSource : Bool

/-- `Disposition`: what an application did. -/
inductive Disposition where
  | initialized
  | extended
  | reorganized
  | alreadyKnown
deriving DecidableEq, Repr

/-- `ApplyResult`. -/
structure ApplyResult (H : Type) where
  disposition : Disposition
  oldTip : Option (BlockRef H)
  newTip : BlockRef H
  ancestor : Option (BlockRef H)
  detached : List (BlockRef H)
  attached : List (BlockRef H)
deriving DecidableEq, Repr

namespace Canonicalizer

variable [DecidableEq H] [ChainBundle B H] [ToString H] (c : Canonicalizer)

/-- The configured depth, or its default. -/
def maxReorgDepth : Uint64 := if c.configuredReorgDepth = 0 then 128 else c.configuredReorgDepth

/-- `maximumAncestryFetches`: the depth and the forward gap, up to the greatest number. -/
def maximumAncestryFetches (forwardGap : Uint64) : Uint64 :=
  if maxUint64 - c.maxReorgDepth < forwardGap then maxUint64 else c.maxReorgDepth + forwardGap

/-- `RefFromBundle`, its error passed on as it is. -/
def refOf (bundle : B) : Except IndexError (BlockRef H) :=
  (refFromBundle bundle).mapError .ofStore

/-- `chainbundle.Validate`: the bundle has an owned copy. -/
def validate (bundle : B) (wrap : String → IndexError) : Except IndexError Unit := do
  let _ ← (ChainBundle.clone bundle).mapError wrap

/-- `chainbundle.ValidateParent`. -/
def validateParent (child parent : B) : Except String Unit := do
  let childNumber ← ChainBundle.number child
  let parentNumber ← ChainBundle.number parent
  failIf (parentNumber = maxUint64 ∨ childNumber ≠ parentNumber + 1)
    (s!"block.number: child {childNumber.val} does not immediately follow " ++
      s!"parent {parentNumber.val}")
  let parentHash ← ChainBundle.blockHash parent
  failIf (ChainBundle.parentHash child ≠ parentHash)
    "block.parentHash: does not match supplied parent"

/-- `parentBundle`: the store first, then the head source or the source. -/
def parentBundle (hash : H) (authoritativeHead : Bool) : IndexM B H (Option B) := do
  match ← storedBundle hash "read parent bundle from store" with
  | some bundle => pure (some bundle)
  | none =>
    if authoritativeHead = true ∧ c.hasHeadSource = true then
      sourceBundle true hash s!"fetch parent bundle {hash}"
    else if c.hasSource = true then
      sourceBundle false hash s!"fetch parent bundle {hash}"
    else pure none

/-- The check of a height against the finalized block. -/
def checkFinalized (finality : Option (Finality H)) (crosses : Uint64 → Bool)
    (text : Uint64 → String) : Except IndexError Unit :=
  match finality.bind Finality.finalized with
  | none => .ok ()
  | some finalized =>
    failIf (crosses finalized.number = true) (.detailed .finalizedReorg (text finalized.number))

/-- A reorg is not too deep and its ancestor not below the finalized block. -/
def validateReorgBoundary (ancestor : BlockRef H) (depth : Uint64) : IndexM B H Unit := do
  failIf (depth > c.maxReorgDepth)
    (IndexError.detailed .reorgTooDeep s!"depth {depth.val} exceeds {c.maxReorgDepth.val}")
  let finality ← readFinality "read finality"
  checkFinalized finality (fun finalized => ancestor.number < finalized)
    fun finalized => s!"ancestor {ancestor.number.val} is below finalized block {finalized.val}"

/-- A replaced range is not too deep and lies above the finalized block. -/
def validateSparseRangeBoundary (covered : BlockRange) (depth : Uint64) : IndexM B H Unit := do
  failIf (depth > c.maxReorgDepth)
    (IndexError.detailed .reorgTooDeep s!"sparse depth {depth.val} exceeds {c.maxReorgDepth.val}")
  let finality ← readFinality "read finality for sparse reorg"
  checkFinalized finality (fun finalized => covered.start ≤ finalized) fun finalized =>
    s!"sparse range starts at {covered.start.val} at or below finalized block {finalized.val}"

/-! ### Detached branches -/

/-- Read `count` canonical blocks downwards from a height. -/
def readDown (missing : Uint64 → IndexError) (context : Uint64 → String) :
    Nat → Uint64 → IndexM B H (List (BlockRef H))
  | 0, _ => pure []
  | count + 1, number => do
      let reference ← canonicalBlock number (context number)
      let reference ← require reference (missing number)
      let rest ← readDown missing context count (number - 1)
      pure (reference :: rest)

/-- The parent links of a branch that is listed downwards. -/
def checkBranch : List (BlockRef H) → Except IndexError Unit
  | upper :: lower :: rest => do
      failIf (upper.parentHash ≠ lower.hash)
        (.detailed .sourceInconsistent s!"canonical ancestry breaks at height {upper.number.val}")
      checkBranch (lower :: rest)
  | _ => .ok ()

/-- The canonical blocks from the tip down to the ancestor, without it. -/
def detachedBranch (tip ancestor : BlockRef H) : IndexM B H (List (BlockRef H)) := do
  failIf (ancestor.number > tip.number)
    (IndexError.detailed .sourceInconsistent "ancestor is above the canonical tip")
  failIf (tip.number - ancestor.number > c.maxReorgDepth) (IndexError.detailed .reorgTooDeep
      s!"depth {(tip.number - ancestor.number).val} exceeds {c.maxReorgDepth.val}")
  let detached ← readDown (fun number => .detailed .gap s!"canonical gap at height {number.val}")
    (fun number => s!"read canonical block {number.val} for reorg")
    (tip.number - ancestor.number).val tip.number
  checkBranch detached
  pure detached

/-- The part of a covered range above the ancestor and up to the tip. -/
def partAbove (tip ancestor : Uint64) (covered : BlockRange) : Option BlockRange :=
  if min covered.stop tip ≤ ancestor then none
  else some ⟨if covered.start ≤ ancestor then ancestor + 1 else covered.start,
    min covered.stop tip⟩

/-- The loop of `coveredDepthAbove`. -/
def coveredDepthLoop (tip ancestor limit : Uint64) :
    List BlockRange → Uint64 → Except IndexError Uint64
  | [], total => .ok total
  | covered :: rest, total =>
    match partAbove tip ancestor covered with
    | none => coveredDepthLoop tip ancestor limit rest total
    | some part =>
      if part.stop < part.start then coveredDepthLoop tip ancestor limit rest total
      else do
        failIf (total > limit ∨ part.stop - part.start + 1 > limit - total)
          (.detailed .reorgTooDeep s!"covered depth exceeds {limit.val}")
        coveredDepthLoop tip ancestor limit rest (total + (part.stop - part.start + 1))

/-- The number of covered heights above the ancestor, counted up to a limit. -/
def coveredDepthAbove (tip ancestor : BlockRef H) (ranges : List BlockRange) (limit : Uint64) :
    Except IndexError Uint64 := do
  failIf (ancestor.number > tip.number)
    (.detailed .sourceInconsistent "sparse ancestor is above the canonical tip")
  coveredDepthLoop tip.number ancestor.number limit ranges 0

/-- One block of `detachedCoveredAbove`, checked against the block read before it. -/
def readCoveredBlock (number : Uint64) (previous : Option (BlockRef H)) :
    IndexM B H (BlockRef H) := do
  let reference ← canonicalBlock number
    s!"read covered canonical block {number.val} for sparse reorg"
  let reference ← require reference
    (.detailed .gap s!"sparse coverage is missing canonical height {number.val}")
  failIf (∃ upper ∈ previous,
      upper.number = reference.number + 1 ∧ upper.parentHash ≠ reference.hash)
    (IndexError.detailed .sourceInconsistent
      s!"canonical ancestry breaks at height {(reference.number + 1).val}")
  pure reference

/-- The blocks of one range, downwards; `count` further blocks follow the first. -/
def readCoveredRange : Nat → Uint64 → Option (BlockRef H) → IndexM B H (List (BlockRef H))
  | 0, number, previous => do
      let reference ← readCoveredBlock number previous
      pure [reference]
  | count + 1, number, previous => do
      let reference ← readCoveredBlock number previous
      let rest ← readCoveredRange count (number - 1) (some reference)
      pure (reference :: rest)

/-- The ranges of `detachedCoveredAbove`, highest first. -/
def readCoveredRanges (tip ancestor : Uint64) :
    List BlockRange → Option (BlockRef H) → IndexM B H (List (BlockRef H))
  | [], _ => pure []
  | covered :: rest, previous =>
    match partAbove tip ancestor covered with
    | none => readCoveredRanges tip ancestor rest previous
    | some part => do
        let upper ← readCoveredRange (part.stop - part.start).val part.stop previous
        let lower ← readCoveredRanges tip ancestor rest upper.getLast?
        pure (upper ++ lower)

/-- The covered blocks above the ancestor, from the tip down, checked against the depth.
    -/
def detachedCoveredAbove (tip ancestor : BlockRef H) (ranges : List BlockRange)
    (expectedDepth : Uint64) : IndexM B H (List (BlockRef H)) := do
  let detached ← readCoveredRanges tip.number ancestor.number ranges.reverse none
  failIf (detached.head?.map BlockRef.number ≠ some tip.number ∨
      detached.head?.map BlockRef.hash ≠ some tip.hash)
    (IndexError.detailed .gap "highest covered canonical range does not match the tip")
  failIf (uint64 detached.length ≠ expectedDepth)
    (IndexError.detailed .sourceInconsistent "covered detach depth changed during traversal")
  pure detached

/-! ### Writes -/

/-- The loop of `commitCanonicalBundles` on an index without a configured start. -/
def commitEach : List (BlockRef H × B) → IndexM B H Unit
  | [] => pure ()
  | (reference, bundle) :: rest => do
      callRepository (.commitCanonical bundle (newCoreCheckpoint reference)) .ofStore
      commitEach rest

/-- Commits the bundles as a segment where a coverage is configured, one by one otherwise.
    -/
def commitCanonicalBundles (items : List (BlockRef H × B)) : IndexM B H Unit := match items with
  | [] => pure ()
  | item :: rest => do
      match ← readCoverage "read canonical coverage before commit" with
      | some _ =>
        callRepository (.commitCanonicalSegment ((item :: rest).map snd)) .ofStore
      | none => commitEach (item :: rest)

/-- Takes the chain back to one of its own blocks. -/
def truncateHead (oldTip newTip : BlockRef H) : IndexM B H (ApplyResult H) := do
  failIf (newTip.number > oldTip.number)
    (IndexError.detailed .sourceInconsistent "truncated tip is above the current tip")
  c.validateReorgBoundary newTip (oldTip.number - newTip.number)
  let detached ← c.detachedBranch oldTip newTip
  let slice ← makeSlice detached
  callRepository (.applyReorg
      { ancestor := newTip, detached := slice, attached := emptySlice,
        checkpoint := newCoreCheckpoint newTip,
        reason := "authoritative head moved to an earlier canonical block" })
    (IndexError.storeContext "apply canonical head truncation")
  pure { disposition := .reorganized, oldTip := some oldTip, newTip := newTip,
         ancestor := some newTip, detached := detached, attached := [] }

/-- Takes a chain with gaps back to one of its own blocks. -/
def truncateSparseHead (oldTip newTip : BlockRef H) (ranges : List BlockRange)
    (covered : BlockRange) : IndexM B H (ApplyResult H) := do
  let depth ← coveredDepthAbove oldTip newTip ranges c.maxReorgDepth
  c.validateReorgBoundary newTip depth
  let detached ← detachedCoveredAbove oldTip newTip ranges depth
  let slice ← makeSlice detached
  callRepository (.replaceHighestCanonicalSegment
      { range := covered, ancestor := some newTip, detached := slice, attached := emptySlice,
        reason := "authoritative head moved below disconnected live coverage" })
    (IndexError.storeContext "truncate disconnected live coverage")
  pure { disposition := .reorganized, oldTip := some oldTip, newTip := newTip,
         ancestor := some newTip, detached := detached, attached := [] }

/-- Replaces the whole highest range by a branch that starts at its start. -/
def replaceSparseHead (oldTip candidate : BlockRef H) (covered : BlockRange)
    (items : List (BlockRef H × B)) : IndexM B H (ApplyResult H) := do
  failIf (covered.stop < covered.start)
    (IndexError.detailed .sourceInconsistent "sparse range ends before it starts")
  -- compared without the height that is added below, which could wrap
  failIf (covered.stop - covered.start ≥ c.maxReorgDepth)
    (IndexError.detailed .reorgTooDeep s!"sparse depth exceeds {c.maxReorgDepth.val}")
  c.validateSparseRangeBoundary covered (covered.stop - covered.start + 1)
  let detached ← readDown
    (fun number => .detailed .gap s!"sparse canonical range is missing height {number.val}")
    (fun number => s!"read sparse canonical block {number.val}")
    ((covered.stop - covered.start).val + 1) covered.stop
  let slice ← makeSlice detached
  let attached ← makeSlice (items.map Prod.snd)
  callRepository (.replaceHighestCanonicalSegment
      { range := covered, ancestor := none, detached := slice, attached := attached,
        reason := "authoritative live head replaced an isolated canonical range" })
    (IndexError.storeContext "replace sparse canonical live range")
  pure { disposition := .reorganized, oldTip := some oldTip, newTip := candidate,
         ancestor := none, detached := detached, attached := items.map Prod.fst }

/-- Replaces the covered blocks above a common ancestor by a branch. -/
def replaceSparseHeadThroughAncestor (oldTip candidate ancestor : BlockRef H)
    (covered : BlockRange) (ranges : List BlockRange) (items : List (BlockRef H × B)) :
    IndexM B H (ApplyResult H) := do
  let depth ← coveredDepthAbove oldTip ancestor ranges c.maxReorgDepth
  c.validateReorgBoundary ancestor depth
  let detached ← detachedCoveredAbove oldTip ancestor ranges depth
  let slice ← makeSlice detached
  let attached ← makeSlice (items.map Prod.snd)
  callRepository (.replaceHighestCanonicalSegment
      { range := covered, ancestor := some ancestor, detached := slice, attached := attached,
        reason := "authoritative live ancestry repaired canonical coverage across a gap" })
    (IndexError.storeContext "replace sparse canonical coverage through ancestor")
  pure { disposition := .reorganized, oldTip := some oldTip, newTip := candidate,
         ancestor := some ancestor, detached := detached, attached := items.map Prod.fst }

/-! ### The ancestry walk -/

/-- What the walk knows before it starts. -/
structure WalkContext (H : Type) where
  authoritativeHead : Bool
  tip : BlockRef H
  sparseTop : Option BlockRange
  resolvingKnownSparseHead : Bool
  maximumParentFetches : Uint64

/-- How the walk ends: at a canonical ancestor, or at the start of the disconnected
    live range.  The bundles above that point are listed lowest first. -/
inductive WalkEnd (B H : Type) where
  | ancestor (ancestor : BlockRef H) (items : List (BlockRef H × B))
  | sparseStart (items : List (BlockRef H × B))

/-- The finality record is read once. -/
def loadFinality (finality : Option (Option (Finality H))) : IndexM B H (Option (Finality H)) :=
  match finality with
  | some loaded => pure loaded
  | none => readFinality "read finality before ancestry traversal"

/-- The part of the loop body for a cursor that is not above the tip: the ancestor,
    or the finality record for the next round. -/
def walkBelowTip (w : WalkContext H) (cursor : BlockRef H)
    (finality : Option (Option (Finality H))) :
    IndexM B H (BlockRef H ⊕ Option (Option (Finality H))) := do
  let canonical ← canonicalBlock cursor.number
    s!"read canonical ancestor candidate {cursor.number.val}"
  -- a known head is canonical itself, so the walk has to leave its own range first
  let inside := w.resolvingKnownSparseHead &&
    w.sparseTop.any fun top => decide (top.start ≤ cursor.number)
  match canonical.filter fun known => known.hash = cursor.hash ∧ inside = false with
  | some ancestor => pure (.inl ancestor)
  | none => do
      failIf (w.tip.number - cursor.number ≥ c.maxReorgDepth) (IndexError.detailed .reorgTooDeep
          (s!"alternate block {cursor.number.val} requires depth greater than " ++
            s!"{c.maxReorgDepth.val}"))
      let loaded ← loadFinality finality
      checkFinalized loaded (fun finalized => cursor.number ≤ finalized) fun finalized =>
        s!"alternate block {cursor.number.val} reaches finalized block {finalized.val}"
      pure (.inr (some loaded))

/-- The ancestor is looked for at heights up to the tip only. -/
def walkStatus (w : WalkContext H) (cursor : BlockRef H) (finality : Option (Option (Finality H))) :
    IndexM B H (BlockRef H ⊕ Option (Option (Finality H))) :=
  if cursor.number ≤ w.tip.number then c.walkBelowTip w cursor finality
  else pure (.inr finality)

/-- The loop body up to the parent fetch. -/
def walkStep (w : WalkContext H) (cursor : BlockRef H) (bundle : B)
    (above : List (BlockRef H × B)) (finality : Option (Option (Finality H))) :
    IndexM B H (WalkEnd B H ⊕ Option (Option (Finality H))) := do
  match ← c.walkStatus w cursor finality with
  | .inl ancestor => pure (.inl (.ancestor ancestor above))
  | .inr finality =>
    if w.sparseTop.map Span.start = some cursor.number ∧ w.resolvingKnownSparseHead = false then
      pure (.inl (.sparseStart ((cursor, bundle) :: above)))
    else do
      failIf (cursor.number = 0 ∨ cursor.number ≤ c.startBlock)
        (⟨.noCommonAncestor, Cause.noCommonAncestor.text ++
          s!" above configured start block {c.startBlock.val}"⟩ : IndexError)
      pure (.inr finality)

/-- The parent of the cursor, from the store or the source, checked against it. -/
def fetchParent (w : WalkContext H) (cursor : BlockRef H) (bundle : B) : IndexM B H B := do
  let parent ← c.parentBundle cursor.parentHash w.authoritativeHead
  let parent ← require parent
    (.detailed .gap s!"parent {cursor.parentHash} of block {cursor.hash} is unavailable")
  validate parent fun text =>
    .detailed .sourceInconsistent s!"invalid parent bundle: {text}"
  (validateParent bundle parent).mapError (IndexError.detailed .sourceInconsistent)
  pure parent

/-- The ancestry loop; the first argument counts the parent fetches left. -/
def walk (w : WalkContext H) :
    Nat → B → List (BlockRef H × B) → Option (Option (Finality H)) →
      IndexM B H (WalkEnd B H)
  | 0, bundle, above, finality => do
      let cursor ← refOf bundle
      match ← c.walkStep w cursor bundle above finality with
      | .inl ending => pure ending
      -- the fetches are used up
      | .inr _ =>
        .fail (.detailed (if cursor.number > w.tip.number then .gap else .reorgTooDeep)
          s!"ancestry traversal reached {w.maximumParentFetches.val} parent bundles")
  | left + 1, bundle, above, finality => do
      let cursor ← refOf bundle
      match ← c.walkStep w cursor bundle above finality with
      | .inl ending => pure ending
      | .inr finality => do
          let parent ← c.fetchParent w cursor bundle
          walk w left parent ((cursor, bundle) :: above) finality

/-! ### Apply -/

/-- The range of the last coverage entry when it is disconnected from the configured
    start and ends at the tip. -/
def sparseTopOf (coverage : Option (CoreCoverage H)) (tip : BlockRef H) : Option BlockRange :=
  match coverage with
  | none => none
  | some coverage =>
    coverage.ranges.getLast?.filter fun top =>
      top.start ≠ coverage.configuredStart ∧ tip.number = top.stop

/-- The ranges of the coverage that was read. -/
def rangesOf (coverage : Option (CoreCoverage H)) : List BlockRange := match coverage with
  | none => []
  | some coverage => coverage.ranges

/-- A known head on top of a gap that is small enough is worth a walk. -/
def shouldResolveSparseHead (ranges : List BlockRange) (candidate tip : BlockRef H) : Bool :=
  match ranges.getLast?, ranges.dropLast.getLast? with
  | some top, some previous =>
    decide (candidate.number = tip.number ∧ top.stop = tip.number ∧ previous.stop < top.start
      ∧ previous.stop ≠ maxUint64 ∧ top.start - previous.stop - 1 ≤ c.maxReorgDepth)
  | _, _ => false

/-- The first block of an empty chain. -/
def applyInitial (candidate : B) (candidateRef : BlockRef H) : IndexM B H (ApplyResult H) := do
  failIf (candidateRef.number ≠ c.startBlock) (IndexError.detailed .gap
      s!"expected start block {c.startBlock.val}, got {candidateRef.number.val}")
  (commitCanonicalBundles [(candidateRef, candidate)]).mapError
    (IndexError.wrap "commit initial canonical block")
  pure { disposition := .initialized, oldTip := none, newTip := candidateRef, ancestor := none,
         detached := [], attached := [candidateRef] }

/-- The reorganization at the end of `apply`. -/
def reorganize (tip candidate ancestor : BlockRef H) (items : List (BlockRef H × B)) :
    IndexM B H (ApplyResult H) := do
  c.validateReorgBoundary ancestor (tip.number - ancestor.number)
  let detached ← c.detachedBranch tip ancestor
  let slice ← makeSlice detached
  let attached ← makeSlice (items.map Prod.snd)
  callRepository (.applyReorg
      { ancestor := ancestor, detached := slice, attached := attached,
        checkpoint := newCoreCheckpoint candidate, reason := "canonical head ancestry changed" })
    (IndexError.storeContext "apply canonical reorg")
  pure { disposition := .reorganized, oldTip := some tip, newTip := candidate,
         ancestor := some ancestor, detached := detached, attached := items.map Prod.fst }

/-- The extension at the end of `apply`. -/
def extend (tip candidate ancestor : BlockRef H) (items : List (BlockRef H × B)) :
    IndexM B H (ApplyResult H) := do
  (commitCanonicalBundles items).mapError
    (.wrap s!"commit canonical extension through {candidate.number.val}")
  pure { disposition := .extended, oldTip := some tip, newTip := candidate,
         ancestor := some ancestor, detached := [], attached := items.map fst }

/-- `apply` after the walk. -/
def finish (w : WalkContext H) (candidate : BlockRef H) (ranges : List BlockRange) :
    WalkEnd B H → IndexM B H (ApplyResult H)
  | .sparseStart items =>
    match w.sparseTop with
    | some top => c.replaceSparseHead w.tip candidate top items
    | none => .fail (.detailed .panic "invalid memory address or nil pointer dereference")
  | .ancestor ancestor items =>
    match w.sparseTop.filter fun top => ancestor.number < top.start with
    | some top => c.replaceSparseHeadThroughAncestor w.tip candidate ancestor top ranges items
    | none =>
      if ancestor.hash = w.tip.hash then extend w.tip candidate ancestor items
      else c.reorganize w.tip candidate ancestor items

/-- `apply` from the forward gap on. -/
def connect (candidate : B) (candidateRef tip : BlockRef H) (coverage : Option (CoreCoverage H))
    (known authoritativeHead : Bool) : IndexM B H (ApplyResult H) := do
  failIf (candidateRef.number < tip.number ∧ authoritativeHead = false)
    (IndexError.detailed .staleHead
      s!"candidate {candidateRef.number.val}, canonical tip {tip.number.val}")
  -- the walk would have to cross this gap before it meets the chain
  failIf (candidateRef.number > tip.number ∧ candidateRef.number - tip.number > c.maxReorgDepth)
    (IndexError.detailed .gap
      (s!"candidate gap {(candidateRef.number - tip.number).val} exceeds bounded ancestry work " ++
        s!"{c.maxReorgDepth.val}"))
  let forwardGap : Uint64 :=
    if candidateRef.number > tip.number then candidateRef.number - tip.number else 0
  let w : WalkContext H :=
    { authoritativeHead := authoritativeHead, tip := tip, sparseTop := sparseTopOf coverage tip
      resolvingKnownSparseHead := (sparseTopOf coverage tip).isSome && known
      maximumParentFetches := c.maximumAncestryFetches forwardGap }
  let ending ← c.walk w w.maximumParentFetches.val candidate [] none
  c.finish w candidateRef (rangesOf coverage) ending

/-- `apply` for a candidate that is canonical already. -/
def applyKnown (candidate : B) (candidateRef tip known : BlockRef H)
    (coverage : Option (CoreCoverage H)) (authoritativeHead : Bool) :
    IndexM B H (ApplyResult H) :=
  if authoritativeHead = true ∧ candidateRef.number < tip.number then
    match (sparseTopOf coverage tip).filter fun top => candidateRef.number < top.start with
    | some top => c.truncateSparseHead tip known (rangesOf coverage) top
    | none => c.truncateHead tip known
  else if (sparseTopOf coverage tip).isNone = true ∨
      c.shouldResolveSparseHead (rangesOf coverage) candidateRef tip = false then
    pure { disposition := .alreadyKnown, oldTip := some tip, newTip := tip, ancestor := none,
           detached := [], attached := [] }
  else c.connect candidate candidateRef tip coverage true authoritativeHead

/-- The coverage that `apply` reads for an authoritative head. -/
def headCoverage (authoritativeHead : Bool) : IndexM B H (Option (CoreCoverage H)) :=
  if authoritativeHead = true then readCoverage "read canonical coverage for live head"
  else pure none

/-- `apply` on a chain with a tip. -/
def applyAbove (candidate : B) (candidateRef tip : BlockRef H) (authoritativeHead : Bool) :
    IndexM B H (ApplyResult H) := do
  let coverage ← headCoverage authoritativeHead
  let canonical ← canonicalBlock candidateRef.number "read candidate canonical height"
  match canonical.filter fun known => known.hash = candidateRef.hash with
  | some known => c.applyKnown candidate candidateRef tip known coverage authoritativeHead
  | none => c.connect candidate candidateRef tip coverage false authoritativeHead

/-- `Canonicalizer.apply`: brings the chain to a candidate. -/
def apply (candidate : B) (authoritativeHead : Bool) : IndexM B H (ApplyResult H) := do
  failIf (c.chainID = "") (IndexError.plain "canonicalizer chain ID is empty")
  validate candidate fun text => .plain s!"validate candidate bundle: {text}"
  let candidateRef ← refOf candidate
  match ← canonicalTip "read canonical tip" with
  | none => c.applyInitial candidate candidateRef
  | some tip => c.applyAbove candidate candidateRef tip authoritativeHead

/-- `Apply`. -/
def applyHistorical (candidate : B) : IndexM B H (ApplyResult H) := c.apply candidate false

/-- `ApplyHead`: the candidate is the authoritative head. -/
def applyHead (candidate : B) : IndexM B H (ApplyResult H) := c.apply candidate true

/-! ### Refresh and finality -/

/-- `Refresh`: rewrites the facts of a block that is canonical. -/
def refresh (candidate : B) (options : RefreshOptions) : IndexM B H (ApplyResult H) := do
  failIf (c.chainID = "") (IndexError.plain "canonicalizer chain ID is empty")
  validate candidate fun text => .plain s!"validate refresh candidate: {text}"
  let candidateRef ← refOf candidate
  let canonical ← canonicalBlock candidateRef.number "read refresh canonical height"
  let canonical ← require canonical
    (.detailed .gap s!"refresh block {candidateRef.number.val} is not canonical")
  failIf (canonical.hash ≠ candidateRef.hash) (IndexError.detailed .staleHead
      (s!"refresh block {candidateRef.number.val} hash {candidateRef.hash} does not match " ++
        s!"canonical hash {canonical.hash}"))
  let tip ← canonicalTip "read canonical tip before refresh"
  let tip ← require tip (.detailed .gap "canonical chain is empty")
  callRepository (.refreshCanonical candidate options)
    (IndexError.storeContext "refresh canonical block")
  pure { disposition := .alreadyKnown, oldTip := some tip, newTip := tip, ancestor := none,
         detached := [], attached := [] }

/-- One requested marker of `UpdateFinality`, resolved to the canonical block. -/
def resolveMarker (tip : BlockRef H) (name : String) (requested : Option (BlockRef H)) :
    IndexM B H (Option (BlockRef H)) :=
  match requested with
  | none => pure none
  | some requested => do
      failIf (requested.number > tip.number) (IndexError.plain
          s!"{name} height {requested.number.val} exceeds canonical tip {tip.number.val}")
      let canonical ← canonicalBlock requested.number s!"resolve {name} block"
      let canonical ← require (canonical.filter fun known => known.hash = requested.hash)
        (.detailed (.store .conflict) s!"{name} block is not canonical")
      pure (some canonical)

/-- The lower of the resolved markers. -/
def ancestryFloor (safe finalized : Option (BlockRef H)) : Option (BlockRef H) :=
  match safe, finalized with
  | some safe, some finalized =>
    if finalized.number < safe.number then some finalized else some safe
  | some safe, none => some safe
  | none, finalized => finalized

/-- The loop of `validateCanonicalAncestry`; every round goes down one height. -/
def ancestryLoop (floor : BlockRef H) : Nat → BlockRef H → IndexM B H (BlockRef H)
  | 0, child => pure child
  | fuel + 1, child =>
    if child.number > floor.number then do
      let parent ← canonicalBlock (child.number - 1)
        s!"read canonical finality ancestor {(child.number - 1).val}"
      let parent ← require parent (.detailed .gap
        s!"canonical finality ancestry has a gap at height {(child.number - 1).val}")
      failIf (child.parentHash ≠ parent.hash) (IndexError.detailed .sourceInconsistent
          (s!"canonical block {child.number.val} parent {child.parentHash} does not match " ++
            s!"block {parent.number.val} hash {parent.hash}"))
      ancestryLoop floor fuel parent
    else pure child

/-- The finality floor is an ancestor of the tip. -/
def validateCanonicalAncestry (tip floor : BlockRef H) : IndexM B H Unit := do
  let child ← ancestryLoop floor tip.number.val tip
  failIf (child.hash ≠ floor.hash) (IndexError.detailed (.store .conflict)
      "finality floor is not an ancestor of the canonical tip")

/-- The ancestry check when a marker is requested. -/
def checkFloor (tip : BlockRef H) (floor : Option (BlockRef H)) : IndexM B H Unit :=
  match floor with
  | none => pure ()
  | some floor => validateCanonicalAncestry tip floor

/-- `UpdateFinality`; the source resolves the two markers in an unspecified order,
    which only decides the error that is reported first. -/
def updateFinality (safe finalized : Option (BlockRef H)) : IndexM B H Unit := do
  let tip ← canonicalTip "read canonical tip"
  let tip ← require tip (.plain "cannot update finality before canonical indexing starts")
  let safe ← resolveMarker tip "safe" safe
  let finalized ← resolveMarker tip "finalized" finalized
  checkFloor tip (ancestryFloor safe finalized)
  callRepository (.updateFinality { safe := safe, finalized := finalized }) .ofStore

end Canonicalizer

/-! ## The repository as a service -/

section Service

variable [DecidableEq H] [ChainBundle B H] [ToString H]

/-- How the in-memory repository answers; a block source may answer anything. -/
def memoryServes : (request : Request B H) → MemoryChain B H → Answer request →
    MemoryChain B H → Prop
  | .canonicalTip, s, answer, t => t = s ∧ answer = memoryTip s
  | .canonicalBlock number, s, answer, t => t = s ∧ answer = memoryCanonicalRef s number
  | .coverage, s, answer, t => t = s ∧ answer = Store.coverage s
  | .finality, s, answer, t => t = s ∧ answer = .ok s.finality
  | .bundleByHash hash, s, answer, t => t = s ∧ answer = Store.bundleByHash s hash
  | .call call, s, answer, t => call.exec.run s = (answer, t)
  | .source _ _, s, _, t => t = s
  | .sourceHead, s, _, t => t = s
  | .sourceBlock _, s, _, t => t = s
  | .sourceFinality, s, _, t => t = s

end Service

end Indexer
