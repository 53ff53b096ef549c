import Etherview.StoreMemory

/-! # What the repository methods do

    One lemma per method says what a success has checked and which state it leaves
    (`commitCanonical_run`, `applyReorg_run`, …); everything that is proved about
    a method later starts from its lemma and never unfolds the method.

    `WellFormed` is the representation invariant of a chain: blocks are filed
    under their own hash, a canonical hash belongs to a stored block of that
    height, coverage is in normal form and empty before the index is configured.
    On a well-formed chain the fallible reads cannot fail, and `refAt` and `tip`
    are their values. -/

namespace Store

open IntervalSet Transact MapUpdate List Tx Option Finmap Prod Except

variable {B H : Type} [DecidableEq H] [ChainBundle B H]

/-! ## Success conditions -/

variable {s t : MemoryChain B H} {u : Unit}

/-- What a successful commit checks and writes. -/
theorem commitCanonical_run {bundle : B} {checkpoint : Checkpoint H} :
    (commitCanonical bundle checkpoint).run s = (.ok u, t) ↔
      ∃ copy reference, cloneBundle bundle = .ok copy ∧ refFromBundle copy = .ok reference
        ∧ validateCheckpoint checkpoint reference = .ok ()
        ∧ checkMemoryCheckpoint s checkpoint false = .ok ()
        ∧ ((s.canonical.lookup reference.number = some reference.hash
              ∧ t = setMemoryCheckpoint checkpoint (putBlock reference copy s))
          ∨ (s.canonical.lookup reference.number = none
              ∧ (∃ tip, memoryTip s = .ok tip ∧ checkExtendsTip tip reference = .ok ())
              ∧ t = setMemoryCheckpoint checkpoint
                  (putCanonical reference (putBlock reference copy s)))) := by
  unfold commitCanonical
  simp only [run_liftM_bind_ok (α := B), run_liftM_bind_ok (α := BlockRef H),
    run_check_bind_ok, run_get_bind]
  refine exists_congr fun copy => ?_
  rw [← exists_and_left]
  refine exists_congr fun reference => and_congr_right fun _ => and_congr_right fun _ =>
    and_congr_right fun _ => and_congr_right fun _ => ?_
  cases hlook : s.canonical.lookup reference.number with
  | some existing =>
    simp only [run_check_bind_ok, run_modify_bind, run_modify_ok, failIf_eq_ok,
      not_not, some.injEq, reduceCtorEq, false_and, or_false]
  | none =>
    simp only [run_liftM_bind_ok (α := Option (BlockRef H)), run_check_bind_ok, run_modify_bind,
      run_modify_ok, reduceCtorEq, false_and, false_or, true_and]
    constructor
    · rintro ⟨tip, htip, hext, ht⟩
      exact ⟨⟨tip, htip, hext⟩, ht⟩
    · rintro ⟨⟨tip, htip, hext⟩, ht⟩
      exact ⟨tip, htip, hext, ht⟩

theorem refreshCanonical_run [ToString H] {bundle : B} {options : RefreshOptions} :
    (refreshCanonical bundle options).run s = (.ok u, t) ↔
      ∃ copy reference, cloneBundle bundle = .ok copy ∧ refFromBundle copy = .ok reference
        ∧ s.canonical.lookup reference.number = some reference.hash
        ∧ validateMemoryRefreshParent s reference = .ok ()
        ∧ ¬ (options.allowFinalized = false
              ∧ ∃ finalized ∈ s.finalizedNumber, reference.number ≤ finalized)
        ∧ t = putBlock reference copy { s with journals := s.journals.erase reference.hash } := by
  unfold refreshCanonical
  simp only [run_liftM_bind_ok (α := B), run_liftM_bind_ok (α := BlockRef H),
    run_check_bind_ok, run_get_bind, run_modify_bind, run_modify_ok, failIf_eq_ok,
    not_not, exists_and_left, Option.any_eq_true, decide_eq_true_eq]
  rfl

/-- The state `ApplyReorg` writes. -/
def afterReorg (s : MemoryChain B H) (reorg : Reorg B H) (items : List (BlockRef H × B))
    (ranges : List BlockRange) (checkpoint : Option (Checkpoint H)) : MemoryChain B H :=
  let moved := markMemoryJournals (items.map fst) true
    (markMemoryJournals reorg.detached.val false (if s.configuredStart = none then
        { s with blocks := nextBlocks s items, canonical :=
          nextCanonical s reorg.detached.val items }
      else shadowChain s reorg.detached.val items ranges))
  match checkpoint with
  | none => deleteCoreCheckpoint moved
  | some checkpoint => setMemoryCheckpoint checkpoint moved

/-- The conditions `ApplyReorg` checks against the state. -/
structure ReorgAdmitted (s : MemoryChain B H) (reorg : Reorg B H)
    (items : List (BlockRef H × B)) (ranges : List BlockRange)
    (checkpoint : Option (Checkpoint H)) : Prop where
  ancestor : ∃ a, memoryCanonicalRef s reorg.ancestor.number = .ok (some a)
    ∧ a.hash = reorg.ancestor.hash
  tip : checkReorgTip s reorg = .ok ()
  detached : ∀ d ∈ reorg.detached.val, s.canonical.lookup d.number = some d.hash
  finalized : ∀ finalized ∈ s.finalizedNumber, finalized ≤ reorg.ancestor.number
  ranges_eq : reorgRanges s reorg = .ok ranges
  checkpoint_eq : reorgCheckpoint (shadowChain s reorg.detached.val items ranges) reorg
    = .ok checkpoint

/-- What a successful reorg checks and writes. -/
theorem applyReorg_run {argument : Reorg B H} (h : (applyReorg argument).run s = (.ok u, t)) :
      ∃ reorg items ranges checkpoint, ownReorg argument = .ok (reorg, items)
        ∧ ReorgAdmitted s reorg items ranges checkpoint
        ∧ t = afterReorg s reorg items ranges checkpoint := by
  obtain ⟨⟨reorg, items⟩, hown, h⟩ := run_liftM_bind_ok.mp h
  obtain ⟨ancestor, hanc, h⟩ := run_liftM_bind_ok.mp h
  obtain ⟨hhash, h⟩ := run_check_bind_ok.mp h
  obtain ⟨htip, h⟩ := run_check_bind_ok.mp h
  obtain ⟨hdet, h⟩ := run_check_bind_ok.mp h
  obtain ⟨hfin, h⟩ := run_check_bind_ok.mp h
  obtain ⟨ranges, hranges, h⟩ := run_liftM_bind_ok.mp h
  obtain ⟨checkpoint, hcheckpoint, h⟩ := run_liftM_bind_ok.mp h
  simp only [run_modify_bind] at h
  refine ⟨reorg, items, ranges, checkpoint, hown,
    ⟨?_, htip, ?_, ?_, hranges, hcheckpoint⟩, ?_⟩
  · rw [failIf_eq_ok, not_not] at hhash
    cases ancestor with
    | none => cases hhash
    | some a => exact ⟨a, hanc, Option.some.inj hhash⟩
  · intro d hd
    have := checkAll_eq_ok.mp hdet d hd
    rw [failIf_eq_ok, not_not] at this
    exact this
  · intro finalized hf
    rw [failIf_eq_ok, Option.any_eq_true] at hfin
    exact not_lt.mp fun hlt => hfin ⟨finalized, hf, decide_eq_true hlt⟩
  · unfold afterReorg
    by_cases hc : s.configuredStart = none
    · rw [if_pos hc] at h ⊢
      cases checkpoint <;> exact run_modify_ok.mp h
    · rw [if_neg hc] at h ⊢
      cases checkpoint <;> exact run_modify_ok.mp h

/-- The state a segment commit or a replacement writes. -/
def afterSegment (s : MemoryChain B H) (detached : List (BlockRef H))
    (items : List (BlockRef H × B)) (ranges : List BlockRange)
    (checkpoint : Option (Checkpoint H)) : MemoryChain B H :=
  match checkpoint with
  | none => shadowChain s detached items ranges
  | some checkpoint => setMemoryCheckpoint checkpoint (shadowChain s detached items ranges)

/-- The conditions `CommitCanonicalSegment` checks against the state. -/
structure SegmentAdmitted (s : MemoryChain B H) (start : Uint64) (items : List (BlockRef H × B))
    (ranges : List BlockRange) (result : CoreCoverage H) (checkpoint : Option (Checkpoint H)) :
    Prop where
  configured : s.configuredStart = some start
  above : ∀ first ∈ (items.map fst).head?, start ≤ first.number
  heights : ∀ p ∈ items, checkSegmentHeight s p.1 = .ok ()
  lower : ∀ first ∈ (items.map fst).head?, checkSegmentLower s first = .ok ()
  upper : ∀ last ∈ (items.map fst).getLast?, checkSegmentUpper s last = .ok ()
  ranges_eq : normalizeCoverageRanges
    (s.coverage ++ (spanOf (items.map fst)).toList) = .ok ranges
  result_eq : memoryCoverageLocked (shadowChain s [] items ranges) = .ok result
  checkpoint_eq : segmentCheckpoint s result false = .ok checkpoint

variable {s : MemoryChain B H}

section

omit [ChainBundle B H] [DecidableEq H]

theorem requireConfigured_ok {start : Uint64} :
    requireConfigured s = .ok start ↔ s.configuredStart = some start := by
  unfold requireConfigured
  cases s.configuredStart with
  | none => simp
  | some stored => simp

private theorem segmentEnds_ok {items : List (BlockRef H × B)} {first last : BlockRef H} :
    segmentEnds items = .ok (first, last)
      ↔ (items.map fst).head? = some first ∧ (items.map fst).getLast? = some last := by
  unfold segmentEnds
  cases items with
  | nil => simp
  | cons p rest =>
    obtain ⟨q, hq⟩ : ∃ q, (p :: rest).getLast? = some q :=
      ⟨_, getLast?_eq_some_getLast (cons_ne_nil _ _)⟩
    rw [hq, getLast?_map, hq]
    simp

end

variable {result : CoreCoverage H}

/-- What a successful segment commit checks and writes. -/
theorem commitCanonicalSegment_run {bundles : List B}
    (h : (commitCanonicalSegment bundles).run s = (.ok result, t)) :
      ∃ items start ranges checkpoint, validateCanonicalSegment bundles = .ok items
        ∧ SegmentAdmitted s start items ranges result checkpoint
        ∧ t = afterSegment s [] items ranges checkpoint := by
  obtain ⟨items, hitems, h⟩ := run_liftM_bind_ok.mp h
  obtain ⟨start, hstart, h⟩ := run_liftM_bind_ok.mp h
  obtain ⟨⟨first, last⟩, hends, h⟩ := run_liftM_bind_ok.mp h
  obtain ⟨habove, h⟩ := run_check_bind_ok.mp h
  obtain ⟨hheights, h⟩ := run_check_bind_ok.mp h
  obtain ⟨hlower, h⟩ := run_check_bind_ok.mp h
  obtain ⟨hupper, h⟩ := run_check_bind_ok.mp h
  obtain ⟨ranges, hranges, h⟩ := run_liftM_bind_ok.mp h
  obtain ⟨coverage, hcoverage, h⟩ := run_liftM_bind_ok.mp h
  obtain ⟨checkpoint, hcheckpoint, h⟩ := run_liftM_bind_ok.mp h
  obtain ⟨hfirst, hlast⟩ := segmentEnds_ok.mp hends
  rw [failIf_eq_ok] at habove
  have hresult : coverage = result ∧ t = afterSegment s [] items ranges checkpoint := by
    cases checkpoint with
    | none | some checkpoint =>
      cases h
      exact ⟨rfl, rfl⟩
  obtain ⟨rfl, rfl⟩ := hresult
  refine ⟨items, start, ranges, checkpoint, hitems,
    ⟨requireConfigured_ok.mp hstart, ?_, ?_, ?_, ?_, ?_, hcoverage, hcheckpoint⟩, rfl⟩
  · intro f hf
    rw [hfirst] at hf
    cases hf
    exact not_lt.mp habove
  · intro p hp
    exact checkAll_eq_ok.mp hheights p.1 (mem_map_of_mem hp)
  · intro f hf
    rw [hfirst] at hf
    cases hf
    exact hlower
  · intro l hl
    rw [hlast] at hl
    cases hl
    exact hupper
  · rw [spanOf, hfirst, hlast]
    exact hranges

/-- The state `ReplaceHighestCanonicalSegment` writes. -/
def afterReplacement (s : MemoryChain B H) (replacement : SparseCanonicalReplacement B H)
    (items : List (BlockRef H × B)) (ranges : List BlockRange)
    (checkpoint : Option (Checkpoint H)) : MemoryChain B H :=
  let moved := markMemoryJournals (items.map fst) true
    (markMemoryJournals replacement.detached.val false
      (shadowChain s replacement.detached.val items ranges))
  match checkpoint with
  | none => moved
  | some checkpoint => setMemoryCheckpoint checkpoint moved

/-- The conditions `ReplaceHighestCanonicalSegment` checks against the state. -/
structure ReplacementAdmitted (s : MemoryChain B H) (start : Uint64)
    (replacement : SparseCanonicalReplacement B H) (items : List (BlockRef H × B))
    (ranges : List BlockRange) (result : CoreCoverage H) (checkpoint : Option (Checkpoint H)) :
    Prop where
  configured : s.configuredStart = some start
  highest : validateHighestDisconnectedRange s.coverage start replacement.range = .ok ()
  tip : checkReplacementTip s replacement = .ok ()
  detached : ∀ d ∈ replacement.detached.val, memoryCanonicalRef s d.number = .ok (some d)
  above : ∀ a ∈ replacement.ancestor, canonicalAbove s a.number
    = replacement.detached.val.length
  finalized : checkReplacementFinality s replacement = .ok ()
  attached : ∀ p ∈ items, checkReplacementAttached s replacement p.1 = .ok ()
  ranges_eq : coverageRangesAfterSparseReplacement s.coverage replacement (items.map fst)
    = .ok ranges
  result_eq : memoryCoverageLocked (shadowChain s replacement.detached.val items ranges)
    = .ok result
  checkpoint_eq : segmentCheckpoint s result replacement.ancestor.isSome = .ok checkpoint

private theorem checkReplacementDetached_ok {d : BlockRef H}
    (h : checkReplacementDetached s d = .ok ()) :
    memoryCanonicalRef s d.number = .ok (some d) := by
  obtain ⟨canonical, hcanonical, h⟩ := bind_eq_ok.mp h
  rw [failIf_eq_ok, not_not] at h
  rw [hcanonical, h]

/-- What a successful replacement checks and writes. -/
theorem replaceHighestCanonicalSegment_run {replacement : SparseCanonicalReplacement B H}
    (h : (replaceHighestCanonicalSegment replacement).run s = (.ok result, t)) :
      ∃ items start ranges checkpoint, validateSparseCanonicalReplacement replacement = .ok items
        ∧ ReplacementAdmitted s start replacement items ranges result checkpoint
        ∧ t = afterReplacement s replacement items ranges checkpoint := by
  obtain ⟨items, hitems, h⟩ := run_liftM_bind_ok.mp h
  obtain ⟨start, hstart, h⟩ := run_liftM_bind_ok.mp h
  obtain ⟨hhighest, h⟩ := run_check_bind_ok.mp h
  obtain ⟨htip, h⟩ := run_check_bind_ok.mp h
  obtain ⟨hdetached, h⟩ := run_check_bind_ok.mp h
  obtain ⟨habove, h⟩ := run_check_bind_ok.mp h
  obtain ⟨hfinalized, h⟩ := run_check_bind_ok.mp h
  obtain ⟨hattached, h⟩ := run_check_bind_ok.mp h
  obtain ⟨ranges, hranges, h⟩ := run_liftM_bind_ok.mp h
  obtain ⟨coverage, hcoverage, h⟩ := run_liftM_bind_ok.mp h
  obtain ⟨checkpoint, hcheckpoint, h⟩ := run_liftM_bind_ok.mp h
  have hresult : coverage = result
      ∧ t = afterReplacement s replacement items ranges checkpoint := by
    cases checkpoint with
    | none | some checkpoint =>
      cases h
      exact ⟨rfl, rfl⟩
  obtain ⟨rfl, rfl⟩ := hresult
  refine ⟨items, start, ranges, checkpoint, hitems,
    ⟨requireConfigured_ok.mp hstart, hhighest, htip, ?_, ?_, hfinalized, ?_, hranges,
      hcoverage, hcheckpoint⟩, rfl⟩
  · intro d hd
    exact checkReplacementDetached_ok (checkAll_eq_ok.mp hdetached d hd)
  · intro a ha
    rw [failIf_eq_ok] at habove
    by_contra hne
    exact habove ⟨a, ha, hne⟩
  · intro p hp
    exact checkAll_eq_ok.mp hattached p.1 (mem_map_of_mem hp)

theorem updateFinality_run {finality : Finality H} :
    (updateFinality finality).run s = (.ok u, t) ↔
      validateFinality finality = .ok () ∧ checkMarkerCanonical s "safe" finality.safe = .ok ()
        ∧ checkMarkerCanonical s "finalized" finality.finalized = .ok ()
        ∧ checkStoredFinality s finality = .ok ()
        ∧ t = { s with finality := some finality } := by
  unfold updateFinality
  simp only [run_check_bind_ok, run_get_bind, run_modify_ok]

omit [ChainBundle B H] in
theorem appendJournal_run {entry : JournalEntry H} : (appendJournal entry).run s = (.ok u, t) ↔
      entry.stage ≠ "" ∧ entry.payload.valid = true ∧ entry.blockHash ∈ s.blocks
        ∧ (¬ ∃ existing ∈ s.entries entry.blockHash,
            existing.stage = entry.stage ∧ existing.sequence = entry.sequence)
        ∧ t = { s with
            journals := s.journals.insert entry.blockHash (s.entries entry.blockHash ++
              [{ entry with canonical := memoryHashCanonical s entry.blockHash }]) } := by
  unfold appendJournal
  simp only [run_check_bind_ok, run_get_bind, run_modify_ok, failIf_eq_ok, not_not,
    Bool.not_eq_false, ne_eq]

variable {coverage : CoreCoverage H}

omit [ChainBundle B H] in
/-- With regression allowed the checkpoint check passes. -/
theorem segmentCheckpoint_allowed :
    segmentCheckpoint s coverage true = .ok (coverage.contiguous.map newCoreCheckpoint) := by
  unfold segmentCheckpoint
  cases coverage.contiguous with
  | none => rfl
  | some contiguous =>
    have hcheck : checkMemoryCheckpoint s (newCoreCheckpoint contiguous) true = .ok () := by
      unfold checkMemoryCheckpoint
      cases s.checkpoints.lookup (newCoreCheckpoint contiguous).stage <;> rfl
    exact bind_eq_ok.mpr ⟨(), hcheck, rfl⟩

/-- The guarded part of `ConfigureIndex`: read the configured state, or undo. -/
theorem configuredCheckpoint_onError (s : MemoryChain B H) :
    (onError configuredCheckpoint resetIndex).run s = match memoryCoverageLocked s with
      | .ok coverage => (.ok (coverage.contiguous.map newCoreCheckpoint), s)
      | .error err => (.error err, { s with configuredStart := none, coverage := [] }) := by
  have hrun : (configuredCheckpoint : RepoM B H _).run s = match memoryCoverageLocked s with
      | .ok coverage => (.ok (coverage.contiguous.map newCoreCheckpoint), s)
      | .error err => (.error err, s) := by
    unfold configuredCheckpoint
    rw [run_get_bind]
    cases hcov : memoryCoverageLocked s with
    | error err => exact run_bind_of_error (by rw [run_liftM])
    | ok coverage =>
      rw [run_bind_of_ok (a := coverage) (by rw [run_liftM]), run_liftM, segmentCheckpoint_allowed]
  unfold onError
  simp only [hrun]
  cases memoryCoverageLocked s with
  | error err => rfl
  | ok coverage => rfl

/-- A configured index accepts its own start; otherwise the start and the ranges
    of the canonical blocks are stored with the checkpoint they imply. -/
theorem configureIndex_run {start : Uint64} (h : (configureIndex start).run s = (.ok u, t)) :
      (s.configuredStart = some start ∧ t = s)
        ∨ (s.configuredStart = none ∧ ∃ references ranges coverage,
            memoryCanonicalReferences s = .ok references
            ∧ coverageRangesFromRefs references start = .ok ranges
            ∧ memoryCoverageLocked
                { s with configuredStart := some start, coverage := ranges } = .ok coverage
            ∧ t = match coverage.contiguous with
              | none => deleteCoreCheckpoint
                  { s with configuredStart := some start, coverage := ranges }
              | some contiguous => setMemoryCheckpoint (newCoreCheckpoint contiguous)
                  { s with configuredStart := some start, coverage := ranges }) := by
  unfold configureIndex at h
  rw [run_get_bind] at h
  cases hc : s.configuredStart with
  | some stored =>
    rw [hc] at h
    have hsame := not_not.mp (failIf_eq_ok.mp (mk.inj h).1)
    exact .inl ⟨congrArg some hsame, (mk.inj h).2.symm⟩
  | none =>
    rw [hc] at h
    obtain ⟨references, hreferences, h⟩ := run_liftM_bind_ok.mp h
    obtain ⟨ranges, hranges, h⟩ := run_liftM_bind_ok.mp h
    rw [run_modify_bind] at h
    obtain ⟨checkpoint, mid, hmid, h⟩ := run_bind_ok.mp h
    rw [configuredCheckpoint_onError] at hmid
    cases hcov : memoryCoverageLocked
        { s with configuredStart := some start, coverage := ranges } with
    | error err =>
      rw [hcov] at hmid
      cases hmid
    | ok coverage =>
      rw [hcov] at hmid
      cases hmid
      refine .inr ⟨rfl, references, ranges, coverage, hreferences, hranges, hcov, ?_⟩
      cases hcont : coverage.contiguous with
      | none | some contiguous =>
        rw [hcont] at h
        exact run_modify_ok.mp h

/-! ## Well-formed chains -/

/-- The canonical reference at a height, as the reads return it. -/
def MemoryChain.refAt (s : MemoryChain B H) (n : Uint64) : Option (BlockRef H) :=
  match memoryCanonicalRef s n with
  | .ok r => r
  | .error _ => none

/-- The canonical tip, as the reads return it. -/
def MemoryChain.tip (s : MemoryChain B H) : Option (BlockRef H) := match memoryTip s with
  | .ok r => r
  | .error _ => none

/-- The reads depend on the two maps only. -/
theorem MemoryChain.refAt_congr (hb : t.blocks = s.blocks)
    (hc : t.canonical = s.canonical) : t.refAt = s.refAt := by
  funext n
  unfold MemoryChain.refAt memoryCanonicalRef
  rw [hb, hc]

/-- The representation invariant of a chain. -/
structure WellFormed (s : MemoryChain B H) : Prop where
  /-- Blocks are owned and filed under their own hash. -/
  stored : ∀ h b, s.blocks.lookup h = some b → ∃ r, Owned (r, b) ∧ r.hash = h
  /-- A canonical hash belongs to a stored block of that height. -/
  canonical : ∀ n h, s.canonical.lookup n = some h →
    ∃ b r, s.blocks.lookup h = some b ∧ refFromBundle b = .ok r ∧ r.number = n
  unconfigured : s.configuredStart = none → s.coverage = []
  normalized : Normalized s.coverage

theorem wellFormed_empty : WellFormed (MemoryChain.empty : MemoryChain B H) where
  stored := fun h b hb => by
    cases hb
  canonical := fun n h hn => by
    cases hn
  unconfigured := fun _ => rfl
  normalized := Normalized.nil

namespace WellFormed

variable {s : MemoryChain B H} {n : Uint64}

/-- A canonical entry is read back with its own height and hash. -/
theorem canonicalRef_some (hs : WellFormed s) {h : H} (hn : s.canonical.lookup n = some h) :
    ∃ r, memoryCanonicalRef s n = .ok (some r) ∧ r.number = n ∧ r.hash = h := by
  obtain ⟨b, r, hb, hr, hrn⟩ := hs.canonical n h hn
  obtain ⟨q, hq, hqh⟩ := hs.stored h b hb
  have hrq : r = q := ok.inj (hr.symm.trans hq.1)
  refine ⟨r, ?_, hrn, by rw [hrq]; exact hqh⟩
  unfold memoryCanonicalRef
  rw [hn]
  simp only [hb]
  exact bind_eq_ok.mpr ⟨r, hr, rfl⟩

theorem canonicalRef_none
    (hn : s.canonical.lookup n = none) : memoryCanonicalRef s n = .ok none := by
  unfold memoryCanonicalRef
  rw [hn]

section

variable (hs : WellFormed s)
include hs

/-- On a well-formed chain the canonical read cannot fail. -/
theorem canonicalRef_eq (n : Uint64) : memoryCanonicalRef s n = .ok (s.refAt n) := by
  unfold MemoryChain.refAt
  cases hn : s.canonical.lookup n with
  | none => rw [canonicalRef_none hn]
  | some h =>
    obtain ⟨r, hr, -, -⟩ := hs.canonicalRef_some hn
    rw [hr]

theorem refAt_eq_none : s.refAt n = none ↔ s.canonical.lookup n = none := by
  cases hn : s.canonical.lookup n with
  | none =>
    unfold MemoryChain.refAt
    rw [canonicalRef_none hn]
    simp
  | some h =>
    obtain ⟨r, hr, -, -⟩ := hs.canonicalRef_some hn
    unfold MemoryChain.refAt
    rw [hr]
    simp

variable {r : BlockRef H}

/-- What a canonical reference tells about the maps. -/
theorem refAt_some
    (hr : s.refAt n = some r) : r.number = n ∧ s.canonical.lookup n = some r.hash := by
  cases hn : s.canonical.lookup n with
  | none =>
    rw [hs.refAt_eq_none.mpr hn] at hr
    cases hr
  | some h =>
    obtain ⟨q, hq, hqn, hqh⟩ := hs.canonicalRef_some hn
    rw [hs.canonicalRef_eq, hr] at hq
    cases hq
    exact ⟨hqn, by rw [hqh]⟩

theorem refAt_map_hash (n : Uint64) : (s.refAt n).map BlockRef.hash = s.canonical.lookup n := by
  cases hr : s.refAt n with
  | none =>
    rw [hs.refAt_eq_none.mp hr]
    rfl
  | some r =>
    rw [(hs.refAt_some hr).2]
    rfl

/-- The stored bundle behind a canonical reference. -/
theorem refAt_block (hr : s.refAt n = some r) :
    ∃ b, s.blocks.lookup r.hash = some b ∧ Owned (r, b) := by
  obtain ⟨hrn, hcanon⟩ := hs.refAt_some hr
  obtain ⟨b, q, hb, hq, hqn⟩ := hs.canonical n r.hash hcanon
  obtain ⟨p, hp, hph⟩ := hs.stored r.hash b hb
  have hread : memoryCanonicalRef s n = .ok (some p) := by
    unfold memoryCanonicalRef
    rw [hcanon]
    simp only [hb]
    exact bind_eq_ok.mpr ⟨p, hp.1, rfl⟩
  rw [hs.canonicalRef_eq, hr] at hread
  cases hread
  exact ⟨b, hb, hp⟩

/-- The reference of an owned bundle that is canonical at its height. -/
theorem refAt_of_owned {p : BlockRef H × B} (hp : Owned p)
    (hn : s.canonical.lookup p.1.number = some p.1.hash) : s.refAt p.1.number = some p.1 := by
  cases hr : s.refAt p.1.number with
  | none =>
    rw [hs.refAt_eq_none.mp hr] at hn
    cases hn
  | some r =>
    obtain ⟨-, hcanon⟩ := hs.refAt_some hr
    obtain ⟨b, -, hb⟩ := hs.refAt_block hr
    have : r.hash = p.1.hash := some.inj (hcanon.symm.trans hn)
    exact congrArg some (hb.ref_unique hp this)

/-- On a well-formed chain the tip read cannot fail. -/
theorem memoryTip_eq : memoryTip s = .ok s.tip := by
  unfold MemoryChain.tip memoryTip
  by_cases h : s.canonical.keys.Nonempty
  · rw [dif_pos h, hs.canonicalRef_eq]
  · rw [dif_neg h]

/-- The tip is the block at the greatest height with one. -/
theorem tip_some :
    s.tip = some r ↔ s.refAt r.number = some r ∧ ∀ n, s.refAt n ≠ none →
      n ≤ r.number := by
  have hkey : ∀ n, n ∈ s.canonical.keys ↔ s.refAt n ≠ none := by
    intro n
    rw [Finmap.mem_keys, mem_iff, ne_eq, hs.refAt_eq_none]
    constructor
    · rintro ⟨h, hh⟩
      rw [hh]
      exact some_ne_none _
    · intro h
      exact ne_none_iff_exists'.mp h
  unfold MemoryChain.tip memoryTip
  by_cases h : s.canonical.keys.Nonempty
  · rw [dif_pos h, hs.canonicalRef_eq]
    constructor
    · intro hr
      obtain ⟨hrn, -⟩ := hs.refAt_some hr
      refine ⟨by rw [hrn]; exact hr, ?_⟩
      intro n hn
      rw [hrn]
      exact Finset.le_max' _ n ((hkey n).mpr hn)
    · rintro ⟨hr, hmax⟩
      have hmem : r.number ∈ s.canonical.keys := (hkey _).mpr (by rw [hr]; exact some_ne_none _)
      have heq : s.canonical.keys.max' h = r.number :=
        le_antisymm (hmax _ ((hkey _).mp (Finset.max'_mem _ h))) (Finset.le_max' _ _ hmem)
      show s.refAt _ = some r
      rw [heq, hr]
  · rw [dif_neg h]
    constructor
    · intro hno
      cases hno
    · rintro ⟨hr, -⟩
      exact absurd ⟨r.number, (hkey _).mpr (by rw [hr]; exact some_ne_none _)⟩ h

/-- There is no tip iff there is no block. -/
theorem tip_none : s.tip = none ↔ ∀ n, s.refAt n = none := by
  constructor
  · intro htip n
    by_contra hn
    have hkey : s.canonical.keys.Nonempty := by
      refine ⟨n, ?_⟩
      rw [Finmap.mem_keys, mem_iff]
      exact ne_none_iff_exists'.mp (fun h => hn (hs.refAt_eq_none.mpr h))
    have hmem := Finset.max'_mem _ hkey
    rw [Finmap.mem_keys, mem_iff] at hmem
    obtain ⟨h, hh⟩ := hmem
    obtain ⟨r, hr, -, -⟩ := hs.canonicalRef_some hh
    unfold MemoryChain.tip memoryTip at htip
    rw [dif_pos hkey, hr] at htip
    cases htip
  · intro hno
    cases htip : s.tip with
    | none => rfl
    | some r =>
      have := (hs.tip_some.mp htip).1
      rw [hno] at this
      cases this

/-- The canonical hash alone determines the reference. -/
theorem refAt_of_lookup (ht : WellFormed t) (hr : s.refAt n = some r)
    (hn : t.canonical.lookup n = some r.hash) : t.refAt n = some r := by
  obtain ⟨b, -, hb⟩ := hs.refAt_block hr
  have hnum : (r, b).1.number = n := (hs.refAt_some hr).1
  have := ht.refAt_of_owned hb (by rw [hnum]; exact hn)
  rw [hnum] at this
  exact this

/-- One canonical map, the same references. -/
theorem refAt_congr (ht : WellFormed t) (h : t.canonical = s.canonical) :
    t.refAt = s.refAt := by
  funext n
  cases hr : s.refAt n with
  | none => exact ht.refAt_eq_none.mpr (h ▸ hs.refAt_eq_none.mp hr)
  | some r => exact hs.refAt_of_lookup ht hr (h ▸ (hs.refAt_some hr).2)

end

/-! ### One branch out, another one in -/

section Move

variable {t : MemoryChain B H} {detached : List (BlockRef H)} {items : List (BlockRef H × B)}

/-- A state whose maps are a move of a well-formed state is well-formed. -/
theorem move (hs : WellFormed s) (howned : ∀ p ∈ items, Owned p)
    (hblocks : t.blocks = nextBlocks s items)
    (hcanonical : t.canonical = nextCanonical s detached items)
    (hunconf : t.configuredStart = none → t.coverage = []) (hnorm : Normalized t.coverage) :
    WellFormed t where
  stored := by
    intro h b hb
    rw [hblocks] at hb
    rcases lookup_insertAll_cases hb with ⟨p, hp, hph, hpb⟩ | ⟨-, hold⟩
    · refine ⟨p.1, ?_, hph⟩
      have := howned p hp
      rw [← hpb]
      exact this
    · exact hs.stored h b hold
  canonical := by
    intro n h hn
    rw [hcanonical] at hn
    -- the block of an added hash is one of the items, or an older copy of the same block
    have hblock : ∀ h', (∃ p ∈ items, p.1.hash = h') →
        ∃ p ∈ items, p.1.hash = h' ∧ t.blocks.lookup h' = some p.2 := by
      intro h' hex
      rw [hblocks]
      exact lookup_insertAll_of_mem hex
    rcases lookup_insertAll_cases hn with ⟨p, hp, hpn, hph⟩ | ⟨-, hold⟩
    · obtain ⟨q, hq, hqh, hqb⟩ := hblock h ⟨p, hp, hph⟩
      refine ⟨q.2, q.1, hqb, (howned q hq).1, ?_⟩
      have hpq : p.1 = q.1 := (howned p hp).ref_unique (howned q hq) (hph.trans hqh.symm)
      rw [← hpq]
      exact hpn
    · obtain ⟨b, r, hb, hr, hrn⟩ := hs.canonical n h (lookup_eraseAll.mp hold).2
      by_cases hex : ∃ p ∈ items, p.1.hash = h
      · obtain ⟨q, hq, hqh, hqb⟩ := hblock h hex
        refine ⟨q.2, q.1, hqb, (howned q hq).1, ?_⟩
        obtain ⟨r', hr', hr'h⟩ := hs.stored h b hb
        have hrr : r = r' := ok.inj (hr.symm.trans hr'.1)
        have : q.1 = r' := (howned q hq).ref_unique hr' (hqh.trans hr'h.symm)
        rw [this, ← hrr]
        exact hrn
      · refine ⟨b, r, ?_, hr, hrn⟩
        rw [hblocks]
        show (insertAll _ _ _ _).lookup h = some b
        rw [lookup_insertAll_of_notMem (fun p hp hph => hex ⟨p, hp, hph⟩)]
        exact hb
  unconfigured := hunconf
  normalized := hnorm

/-- An added height holds the added block. -/
theorem refAt_move_attached (ht : WellFormed t) (howned : ∀ p ∈ items, Owned p)
    (hunique : ∀ p ∈ items, ∀ q ∈ items, p.1.number = q.1.number → p.1 = q.1)
    (hcanonical : t.canonical = nextCanonical s detached items) {p : BlockRef H × B}
    (hp : p ∈ items) : t.refAt p.1.number = some p.1 := by
  refine ht.refAt_of_owned (howned p hp) ?_
  rw [hcanonical]
  have hmem : ∃ q ∈ items, q.1.number = p.1.number := ⟨p, hp, rfl⟩
  obtain ⟨q, hq, hqn, hlook⟩ := lookup_insertAll_of_mem hmem
  show (insertAll _ _ _ _).lookup _ = _
  rw [hlook, hunique q hq p hp hqn]

/-- A removed height that is not added again is free. -/
theorem refAt_move_detached (ht : WellFormed t)
    (hcanonical : t.canonical = nextCanonical s detached items)
    (hno : ∀ p ∈ items, p.1.number ≠ n) (hd : ∃ d ∈ detached, d.number = n) :
    t.refAt n = none := by
  rw [ht.refAt_eq_none, hcanonical]
  show (insertAll _ _ _ _).lookup n = none
  rw [lookup_insertAll_of_notMem hno, eq_none_iff_forall_not_mem]
  intro h hh
  obtain ⟨d, hdm, hdn⟩ := hd
  exact (lookup_eraseAll.mp hh).1 d hdm hdn

/-- A height that nothing is detached from or attached to stays. -/
theorem refAt_move_kept (hs : WellFormed s) (ht : WellFormed t)
    (hcanonical : t.canonical = nextCanonical s detached items)
    (hno : ∀ p ∈ items, p.1.number ≠ n) (hkeep : ∀ d ∈ detached, d.number ≠ n) :
    t.refAt n = s.refAt n := by
  have hlook : t.canonical.lookup n = s.canonical.lookup n := by
    rw [hcanonical]
    show (insertAll _ _ _ _).lookup n = _
    rw [lookup_insertAll_of_notMem hno, lookup_eraseAll_of_notMem hkeep]
  cases hr : s.refAt n with
  | none =>
    rw [ht.refAt_eq_none, hlook]
    exact hs.refAt_eq_none.mp hr
  | some r =>
    refine hs.refAt_of_lookup ht hr ?_
    rw [hlook]
    exact (hs.refAt_some hr).2

end Move

end WellFormed

/-! ## The coverage view -/

/-- The end of the range that starts at the configured start. -/
def contiguousEnd (start : Uint64) : List BlockRange → Option Uint64
  | [] => none
  | first :: _ => if first.start = start then some first.stop else none

/-- The coverage view of a state whose range ends are canonical. -/
def MemoryChain.view (s : MemoryChain B H) (start : Uint64) : CoreCoverage H where
  configuredStart := start
  ranges := s.coverage
  contiguous := (contiguousEnd start s.coverage).bind s.refAt
  highest := s.coverage.getLast?.bind fun last => s.refAt last.stop

/-- A successful coverage read has checked the stored ranges. -/
theorem memoryCoverageLocked_normalized
    (h : memoryCoverageLocked s = .ok coverage) : Normalized s.coverage := by
  unfold memoryCoverageLocked at h
  cases hc : s.configuredStart with
  | none =>
    rw [hc] at h
    cases h
  | some start =>
    rw [hc] at h
    obtain ⟨_, hnorm, -⟩ := bind_eq_ok.mp h
    exact validateNormalizedCoverageRanges_eq_ok.mp hnorm

/-- The coverage read succeeds exactly when the index is configured and the two
    range ends it resolves are canonical, and then returns the view. -/
theorem WellFormed.coverageLocked_ok (hs : WellFormed s) : memoryCoverageLocked s = .ok coverage ↔
      ∃ start, s.configuredStart = some start
        ∧ (∀ last ∈ s.coverage.getLast?, s.refAt last.stop ≠ none)
        ∧ (∀ n ∈ contiguousEnd start s.coverage, s.refAt n ≠ none)
        ∧ coverage = s.view start := by
  unfold memoryCoverageLocked
  cases hc : s.configuredStart with
  | none => simp
  | some start =>
    simp only [Option.some.injEq, exists_eq_left', ne_eq]
    rw [bind_eq_ok]
    simp only [validateNormalizedCoverageRanges_eq_ok, hs.normalized, true_and, exists_const]
    unfold MemoryChain.view
    cases hcov : s.coverage with
    | nil =>
      simp only [head?_nil, getLast?_nil, contiguousEnd, bind_none,
        not_mem_none, false_implies, implies_true, true_and]
      exact ⟨fun h => (pure_eq_ok.mp h).symm, fun h => pure_eq_ok.mpr h.symm⟩
    | cons first rest =>
      obtain ⟨last, hlast⟩ : ∃ l, (first :: rest).getLast? = some l :=
        ⟨_, getLast?_eq_some_getLast (cons_ne_nil _ _)⟩
      rw [hlast]
      simp only [head?_cons, Option.mem_def, Option.some.injEq, forall_eq',
        bind_some, contiguousEnd]
      rw [bind_eq_ok]
      simp only [hs.canonicalRef_eq, Except.ok.injEq, exists_eq_left']
      cases hhigh : s.refAt last.stop with
      | none => simp
      | some highest =>
        by_cases hfirst : first.start = start
        · simp only [hfirst, if_true, Option.some.injEq, forall_eq', bind_some]
          rw [bind_eq_ok]
          simp only [Except.ok.injEq, exists_eq_left']
          cases hcont : s.refAt first.stop with
          | none => simp
          | some contiguous =>
            simp only [reduceCtorEq, not_false_eq_true, true_and]
            exact ⟨fun h => (pure_eq_ok.mp h).symm, fun h => pure_eq_ok.mpr h.symm⟩
        · simp only [hfirst, if_false, reduceCtorEq, not_false_eq_true, true_and,
            false_implies, implies_true, bind_none]
          exact ⟨fun h => (pure_eq_ok.mp h).symm, fun h => pure_eq_ok.mpr h.symm⟩

end Store
