import Etherview.StoreMemorySpec

/-! # Calls and runs of the repository

    `Call` is the alphabet of state-changing repository methods and `runCalls` a
    sequence of them with arbitrary arguments, successful or not.

    * `.atomic` — a failed call leaves the chain as it was;
    * `.wellFormed` — every call keeps the representation invariant, so every
      reachable chain has it (`wellFormed_runCalls`). -/

namespace Store

open IntervalSet Transact MapUpdate Tx Option Prod

variable {B H : Type}

/-- The state-changing methods with their arguments. -/
inductive Call (B H : Type) where
  | configureIndex (start : Uint64)
  | commitCanonical (bundle : B) (checkpoint : Checkpoint H)
  | commitCanonicalSegment (bundles : List B)
  | applyReorg (reorg : Reorg B H)
  | replaceHighestCanonicalSegment (replacement : SparseCanonicalReplacement B H)
  | refreshCanonical (bundle : B) (options : RefreshOptions)
  | updateFinality (finality : Finality H)
  | appendJournal (entry : JournalEntry H)

variable [DecidableEq H] [ChainBundle B H] [ToString H]

/-- The method a call runs, with its result dropped. -/
def Call.exec : Call B H → RepoM B H Unit
  | .configureIndex start => Store.configureIndex start
  | .commitCanonical bundle checkpoint => Store.commitCanonical bundle checkpoint
  | .commitCanonicalSegment bundles => do
      let _ ← Store.commitCanonicalSegment bundles
      return ()
  | .applyReorg reorg => Store.applyReorg reorg
  | .replaceHighestCanonicalSegment replacement => do
      let _ ← Store.replaceHighestCanonicalSegment replacement
      return ()
  | .refreshCanonical bundle options => Store.refreshCanonical bundle options
  | .updateFinality finality => Store.updateFinality finality
  | .appendJournal entry => Store.appendJournal entry

/-- The chain after a call, whether it succeeded or not. -/
def Call.next (call : Call B H) (s : MemoryChain B H) : MemoryChain B H := (call.exec.run s).2

/-- A sequence of calls. -/
def runCalls (s : MemoryChain B H) (calls : List (Call B H)) : MemoryChain B H :=
  calls.foldl (fun s call => call.next s) s

/-- A call that reports success, with the chain it leaves. -/
theorem Call.run_of_isOk {call : Call B H} {s : MemoryChain B H}
    (h : (call.exec.run s).1.isOk = true) : call.exec.run s = (.ok (), call.next s) := by
  unfold Call.next
  rcases hrun : call.exec.run s with ⟨err | u, t⟩
  · rw [hrun] at h
    cases h
  · rfl

/-! ## Failed calls change nothing -/

section Atomicity

omit [ToString H] in
/-- A commit that fails changes nothing. -/
theorem commitCanonical_atomic (bundle : B) (checkpoint : Checkpoint H) :
    (commitCanonical bundle checkpoint).Atomic := by
  refine Atomic.check fun copy => ?_
  refine Atomic.check fun reference => ?_
  refine Atomic.check fun _ => ?_
  refine Atomic.read fun chain => ?_
  refine Atomic.check fun _ => ?_
  cases chain.canonical.lookup reference.number with
  | some existing =>
    refine Atomic.check fun _ => NeverFails.atomic ?_
    exact neverFails_modify.bind fun _ => neverFails_modify
  | none =>
    refine Atomic.check fun tip => ?_
    refine Atomic.check fun _ => NeverFails.atomic ?_
    exact neverFails_modify.bind fun _ =>
      neverFails_modify.bind fun _ => neverFails_modify

theorem refreshCanonical_atomic (bundle : B) (options : RefreshOptions) :
    (refreshCanonical bundle options).Atomic := by
  refine Atomic.check fun copy => ?_
  refine Atomic.check fun reference => ?_
  refine Atomic.read fun chain => ?_
  refine Atomic.check fun _ => ?_
  refine Atomic.check fun _ => ?_
  refine Atomic.check fun _ => NeverFails.atomic ?_
  exact neverFails_modify.bind fun _ => neverFails_modify

section

omit [ToString H]

omit [DecidableEq H] [ChainBundle B H] in
private theorem neverFails_writeCheckpoint (checkpoint : Option (Checkpoint H)) :
    (writeCheckpoint checkpoint : RepoM B H Unit).NeverFails := by
  cases checkpoint with
  | none | some checkpoint => exact neverFails_modify

omit [DecidableEq H] [ChainBundle B H] in
private theorem neverFails_writeCheckpointIfAny (checkpoint : Option (Checkpoint H)) :
    (writeCheckpointIfAny checkpoint : RepoM B H Unit).NeverFails := by
  cases checkpoint with
  | none => exact neverFails_pure
  | some checkpoint => exact neverFails_modify

/-- A reorg that fails changes nothing. -/
theorem applyReorg_atomic (reorg : Reorg B H) : (applyReorg reorg).Atomic := by
  refine Atomic.check ?_
  rintro ⟨reorg, items⟩
  refine Atomic.read fun chain => ?_
  refine Atomic.check fun ancestor => ?_
  refine Atomic.check fun _ => ?_
  refine Atomic.check fun _ => ?_
  refine Atomic.check fun _ => ?_
  refine Atomic.check fun _ => ?_
  refine Atomic.check fun ranges => ?_
  refine Atomic.check fun checkpoint => NeverFails.atomic ?_
  exact neverFails_modify.bind fun _ => neverFails_modify.bind fun _ =>
    neverFails_modify.bind fun _ => neverFails_modify.bind fun _ =>
      neverFails_writeCheckpoint checkpoint

/-- A segment commit that fails changes nothing. -/
theorem commitCanonicalSegment_atomic (bundles : List B) :
    (commitCanonicalSegment bundles).Atomic := by
  refine Atomic.check fun items => ?_
  refine Atomic.read fun chain => ?_
  refine Atomic.check fun start => ?_
  refine Atomic.check ?_
  rintro ⟨first, last⟩
  refine Atomic.check fun _ => ?_
  refine Atomic.check fun _ => ?_
  refine Atomic.check fun _ => ?_
  refine Atomic.check fun _ => ?_
  refine Atomic.check fun ranges => ?_
  refine Atomic.check fun coverage => ?_
  refine Atomic.check fun checkpoint => NeverFails.atomic ?_
  exact neverFails_modify.bind fun _ =>
    (neverFails_writeCheckpointIfAny checkpoint).bind fun _ => neverFails_pure

/-- A replacement that fails changes nothing. -/
theorem replaceHighestCanonicalSegment_atomic (replacement : SparseCanonicalReplacement B H) :
    (replaceHighestCanonicalSegment replacement).Atomic := by
  refine Atomic.check fun items => ?_
  refine Atomic.read fun chain => ?_
  refine Atomic.check fun start => ?_
  refine Atomic.check fun _ => ?_
  refine Atomic.check fun _ => ?_
  refine Atomic.check fun _ => ?_
  refine Atomic.check fun _ => ?_
  refine Atomic.check fun _ => ?_
  refine Atomic.check fun _ => ?_
  refine Atomic.check fun ranges => ?_
  refine Atomic.check fun coverage => ?_
  refine Atomic.check fun checkpoint => NeverFails.atomic ?_
  exact neverFails_modify.bind fun _ => neverFails_modify.bind fun _ =>
    neverFails_modify.bind fun _ =>
      (neverFails_writeCheckpointIfAny checkpoint).bind fun _ => neverFails_pure

theorem updateFinality_atomic (finality : Finality H) :
    (updateFinality finality : RepoM B H Unit).Atomic := by
  refine Atomic.check fun _ => ?_
  refine Atomic.read fun chain => ?_
  refine Atomic.check fun _ => ?_
  refine Atomic.check fun _ => ?_
  refine Atomic.check fun _ => NeverFails.atomic ?_
  exact neverFails_modify

omit [ChainBundle B H] in
theorem appendJournal_atomic (entry : JournalEntry H) :
    (appendJournal entry : RepoM B H Unit).Atomic := by
  refine Atomic.check fun _ => ?_
  refine Atomic.check fun _ => ?_
  refine Atomic.read fun chain => ?_
  refine Atomic.check fun _ => ?_
  refine Atomic.check fun _ => NeverFails.atomic ?_
  exact neverFails_modify

/-- `ConfigureIndex` writes before it knows that it succeeds; undoing the write
    restores the state because an unconfigured chain has no coverage. -/
theorem configureIndex_atomic {start : Uint64} {s t : MemoryChain B H} {err : StoreError}
    (hs : s.configuredStart = none → s.coverage = [])
    (h : (configureIndex start).run s = (.error err, t)) : t = s := by
  unfold configureIndex at h
  rw [run_get_bind] at h
  cases hc : s.configuredStart with
  | some stored =>
    rw [hc] at h
    exact (mk.inj h).2.symm
  | none =>
    rw [hc] at h
    rcases run_liftM_bind_error h with ⟨-, rfl⟩ | ⟨references, -, h⟩
    · rfl
    rcases run_liftM_bind_error h with ⟨-, rfl⟩ | ⟨ranges, -, h⟩
    · rfl
    rw [run_modify_bind] at h
    have hguard := configuredCheckpoint_onError
      { s with configuredStart := some start, coverage := ranges }
    cases hcov : memoryCoverageLocked
        { s with configuredStart := some start, coverage := ranges } with
    | error e =>
      rw [hcov] at hguard
      rw [run_bind_of_error hguard] at h
      rw [← (mk.inj h).2, ← hc, ← hs hc]
    | ok coverage =>
      rw [hcov] at hguard
      rw [run_bind_of_ok hguard] at h
      exact absurd h (neverFails_writeCheckpoint _ _ _ _)

end

/-- A failed call leaves the chain as it was. -/
theorem Call.atomic {call : Call B H} {s t : MemoryChain B H} {err : StoreError}
    (hs : s.configuredStart = none → s.coverage = [])
    (h : call.exec.run s = (.error err, t)) : t = s := by
  cases call with
  | configureIndex start => exact configureIndex_atomic hs h
  | commitCanonical bundle checkpoint => exact commitCanonical_atomic _ _ _ _ _ h
  | commitCanonicalSegment bundles =>
    exact (commitCanonicalSegment_atomic bundles).andThen (fun _ => neverFails_pure) _ _ _ h
  | applyReorg reorg => exact applyReorg_atomic _ _ _ _ h
  | replaceHighestCanonicalSegment replacement =>
    exact (replaceHighestCanonicalSegment_atomic replacement).andThen
      (fun _ => neverFails_pure) _ _ _ h
  | refreshCanonical bundle options => exact refreshCanonical_atomic _ _ _ _ _ h
  | updateFinality finality => exact updateFinality_atomic _ _ _ _ h
  | appendJournal entry => exact appendJournal_atomic _ _ _ _ h

end Atomicity

/-! ## Every call keeps the representation invariant -/

section Preservation

variable {s t : MemoryChain B H}

omit [ToString H] in
/-- A commit keeps the chain well formed. -/
theorem commitCanonical_wellFormed {bundle : B} {checkpoint : Checkpoint H} {u : Unit}
    (hs : WellFormed s) (h : (commitCanonical bundle checkpoint).run s = (.ok u, t)) :
    WellFormed t := by
  obtain ⟨copy, reference, hcopy, href, -, -, h⟩ := commitCanonical_run.mp h
  have howned : ∀ p ∈ [(reference, copy)], Owned p := by
    intro p hp
    rw [List.mem_singleton.mp hp]
    exact Owned.of_clone hcopy href
  rcases h with ⟨hlook, rfl⟩ | ⟨-, -, rfl⟩
  · have hcanonical : s.canonical = nextCanonical s [] [(reference, copy)] :=
      (insert_self hlook).symm
    exact hs.move howned rfl hcanonical hs.unconfigured hs.normalized
  · have hcanonical : (putCanonical reference (putBlock reference copy s)).canonical
        = nextCanonical s [] [(reference, copy)] := rfl
    exact hs.move howned rfl hcanonical hs.unconfigured hs.normalized

/-- A refresh keeps the chain well formed. -/
theorem refreshCanonical_wellFormed {bundle : B} {options : RefreshOptions} {u : Unit}
    (hs : WellFormed s) (h : (refreshCanonical bundle options).run s = (.ok u, t)) :
    WellFormed t := by
  obtain ⟨copy, reference, hcopy, href, hlook, -, -, rfl⟩ := refreshCanonical_run.mp h
  have howned : ∀ p ∈ [(reference, copy)], Owned p := by
    intro p hp
    rw [List.mem_singleton.mp hp]
    exact Owned.of_clone hcopy href
  have hcanonical : s.canonical = nextCanonical s [] [(reference, copy)] := (insert_self hlook).symm
  exact hs.move howned rfl hcanonical hs.unconfigured hs.normalized

section

omit [ToString H]

section

variable (s : MemoryChain B H) (reorg : Reorg B H) (items : List (BlockRef H × B))
  (ranges : List BlockRange) (checkpoint : Option (Checkpoint H))

omit [ChainBundle B H] in
/-- The maps, the coverage and the markers after a reorg. -/
theorem afterReorg_maps : (afterReorg s reorg items ranges checkpoint).blocks = nextBlocks s items
      ∧ (afterReorg s reorg items ranges checkpoint).canonical
        = nextCanonical s reorg.detached.val items
      ∧ (afterReorg s reorg items ranges checkpoint).configuredStart = s.configuredStart
      ∧ (afterReorg s reorg items ranges checkpoint).finality = s.finality
      ∧ (afterReorg s reorg items ranges checkpoint).coverage
        = if s.configuredStart = none then s.coverage else ranges := by
  unfold afterReorg
  by_cases hc : s.configuredStart = none
  · rw [if_pos hc, if_pos hc]
    cases checkpoint <;> exact ⟨rfl, rfl, rfl, rfl, rfl⟩
  · rw [if_neg hc, if_neg hc]
    cases checkpoint <;> exact ⟨rfl, rfl, rfl, rfl, rfl⟩

omit [ChainBundle B H] in
theorem afterReorg_journals : (afterReorg s reorg items ranges checkpoint).journals
      = adjustAll [] (setFlags true) BlockRef.hash (items.map fst)
        (adjustAll [] (setFlags false) BlockRef.hash reorg.detached.val s.journals) := by
  unfold afterReorg
  by_cases hc : s.configuredStart = none
  · rw [if_pos hc]
    cases checkpoint <;> rfl
  · rw [if_neg hc]
    cases checkpoint <;> rfl

end

/-- A reorg keeps the chain well formed. -/
theorem applyReorg_wellFormed {argument : Reorg B H} {u : Unit} (hs : WellFormed s)
    (h : (applyReorg argument).run s = (.ok u, t)) : WellFormed t := by
  obtain ⟨reorg, items, ranges, checkpoint, hown, hadm, rfl⟩ := applyReorg_run h
  obtain ⟨hblocks, hcanonical, hstart, -, hcoverage⟩ :=
    afterReorg_maps s reorg items ranges checkpoint
  refine hs.move (ownReorg_ok hown).owned hblocks hcanonical ?_ ?_
  · intro hnone
    rw [hstart] at hnone
    rw [hcoverage, if_pos hnone]
    exact hs.unconfigured hnone
  · rw [hcoverage]
    cases hc : s.configuredStart with
    | none =>
      rw [if_pos rfl]
      exact hs.normalized
    | some start =>
      rw [if_neg (some_ne_none start)]
      have hranges := hadm.ranges_eq
      rw [reorgRanges, hc] at hranges
      exact (coverageRangesAfterReorg_ok hranges).1

omit [ChainBundle B H] in
/-- The maps, the coverage and the markers after a segment commit. -/
theorem afterSegment_maps (s : MemoryChain B H) (detached : List (BlockRef H))
    (items : List (BlockRef H × B)) (ranges : List BlockRange)
    (checkpoint : Option (Checkpoint H)) :
    (afterSegment s detached items ranges checkpoint).blocks = nextBlocks s items
      ∧ (afterSegment s detached items ranges checkpoint).canonical
        = nextCanonical s detached items
      ∧ (afterSegment s detached items ranges checkpoint).configuredStart = s.configuredStart
      ∧ (afterSegment s detached items ranges checkpoint).finality = s.finality
      ∧ (afterSegment s detached items ranges checkpoint).journals = s.journals
      ∧ (afterSegment s detached items ranges checkpoint).coverage = ranges := by
  cases checkpoint <;> exact ⟨rfl, rfl, rfl, rfl, rfl, rfl⟩

/-- A segment commit keeps the chain well formed. -/
theorem commitCanonicalSegment_wellFormed {bundles : List B} {result : CoreCoverage H}
    (hs : WellFormed s) (h : (commitCanonicalSegment bundles).run s = (.ok result, t)) :
    WellFormed t := by
  obtain ⟨items, start, ranges, checkpoint, hitems, hadm, rfl⟩ := commitCanonicalSegment_run h
  obtain ⟨hblocks, hcanonical, hstart, -, -, hcoverage⟩ :=
    afterSegment_maps s [] items ranges checkpoint
  refine hs.move (validateCanonicalSegment_ok hitems).2.1 hblocks hcanonical ?_ ?_
  · rw [hstart, hadm.configured]
    exact fun hno => absurd hno (some_ne_none _)
  · rw [hcoverage]
    exact (normalizeCoverageRanges_ok hadm.ranges_eq).2.1

section

variable (s : MemoryChain B H) (replacement : SparseCanonicalReplacement B H)
  (items : List (BlockRef H × B)) (ranges : List BlockRange) (checkpoint : Option (Checkpoint H))

omit [ChainBundle B H] in
/-- The maps, the coverage and the markers after a replacement. -/
theorem afterReplacement_maps :
    (afterReplacement s replacement items ranges checkpoint).blocks = nextBlocks s items
      ∧ (afterReplacement s replacement items ranges checkpoint).canonical
        = nextCanonical s replacement.detached.val items
      ∧ (afterReplacement s replacement items ranges checkpoint).configuredStart
        = s.configuredStart
      ∧ (afterReplacement s replacement items ranges checkpoint).finality = s.finality
      ∧ (afterReplacement s replacement items ranges checkpoint).coverage = ranges := by
  cases checkpoint <;> exact ⟨rfl, rfl, rfl, rfl, rfl⟩

omit [ChainBundle B H] in
theorem afterReplacement_journals :
    (afterReplacement s replacement items ranges checkpoint).journals
      = adjustAll [] (setFlags true) BlockRef.hash (items.map fst)
        (adjustAll [] (setFlags false) BlockRef.hash replacement.detached.val s.journals) := by
  cases checkpoint <;> rfl

end

/-- A replacement keeps the chain well formed. -/
theorem replaceHighestCanonicalSegment_wellFormed {result : CoreCoverage H}
    {replacement : SparseCanonicalReplacement B H} (hs : WellFormed s)
    (h : (replaceHighestCanonicalSegment replacement).run s = (.ok result, t)) :
    WellFormed t := by
  obtain ⟨items, start, ranges, checkpoint, hitems, hadm, rfl⟩ :=
    replaceHighestCanonicalSegment_run h
  obtain ⟨hblocks, hcanonical, hstart, -, hcoverage⟩ :=
    afterReplacement_maps s replacement items ranges checkpoint
  refine hs.move (validateSparseCanonicalReplacement_ok hitems).owned hblocks hcanonical ?_ ?_
  · rw [hstart, hadm.configured]
    exact fun hno => absurd hno (some_ne_none _)
  · rw [hcoverage]
    exact (coverageRangesAfterSparseReplacement_ok hadm.ranges_eq).1

/-- Configuring keeps the chain well formed. -/
theorem configureIndex_wellFormed {start : Uint64} {u : Unit} (hs : WellFormed s)
    (h : (configureIndex start).run s = (.ok u, t)) : WellFormed t := by
  rcases configureIndex_run h with ⟨-, rfl⟩ | ⟨-, _, ranges, coverage, -, -, hcov, rfl⟩
  · exact hs
  · have hnorm := memoryCoverageLocked_normalized hcov
    have hnone : ∀ p ∈ ([] : List (BlockRef H × B)), Owned p := fun p hp => nomatch hp
    have hcanonical : s.canonical = nextCanonical s [] ([] : List (BlockRef H × B)) := rfl
    cases coverage.contiguous with
    | none | some contiguous =>
      exact hs.move hnone rfl hcanonical (fun hno => absurd hno (some_ne_none _)) hnorm

end

/-- What a successful call leaves: the leases, a configured start, and, unless it is
    `UpdateFinality`, the markers. -/
theorem Call.frame {call : Call B H} {u : Unit} (h : call.exec.run s = (.ok u, t)) :
    t.backfillLeases = s.backfillLeases
      ∧ (t.finality = s.finality ∨ ∃ finality, call = .updateFinality finality)
      ∧ ∀ start, s.configuredStart = some start → t.configuredStart = some start := by
  cases call with
  | configureIndex start =>
    rcases configureIndex_run h with ⟨-, rfl⟩ | ⟨hno, _, ranges, coverage, -, -, -, rfl⟩
    · exact ⟨rfl, .inl rfl, fun _ => id⟩
    · have hnew : ∀ start, s.configuredStart ≠ some start :=
        fun _ => hno ▸ (some_ne_none _).symm
      cases coverage.contiguous <;> exact ⟨rfl, .inl rfl,
        fun _ hstart => absurd hstart (hnew _)⟩
  | commitCanonical bundle checkpoint =>
    obtain ⟨copy, reference, -, -, -, -, h⟩ := commitCanonical_run.mp h
    rcases h with ⟨-, rfl⟩ | ⟨-, -, rfl⟩
    · exact ⟨rfl, .inl rfl, fun _ => id⟩
    · exact ⟨rfl, .inl rfl, fun _ => id⟩
  | commitCanonicalSegment bundles =>
    obtain ⟨result, hrun, rfl⟩ := run_map_ok h
    obtain ⟨items, start, ranges, checkpoint, -, -, rfl⟩ := commitCanonicalSegment_run hrun
    cases checkpoint <;> exact ⟨rfl, .inl rfl, fun _ => id⟩
  | applyReorg reorg =>
    obtain ⟨owned, items, ranges, checkpoint, -, -, rfl⟩ := applyReorg_run h
    rw [afterReorg.eq_def]
    split_ifs <;> cases checkpoint <;> exact ⟨rfl, .inl rfl, fun _ => id⟩
  | replaceHighestCanonicalSegment replacement =>
    obtain ⟨result, hrun, rfl⟩ := run_map_ok h
    obtain ⟨items, start, ranges, checkpoint, -, -, rfl⟩ :=
      replaceHighestCanonicalSegment_run hrun
    cases checkpoint <;> exact ⟨rfl, .inl rfl, fun _ => id⟩
  | refreshCanonical bundle options =>
    obtain ⟨copy, reference, -, -, -, -, -, rfl⟩ := refreshCanonical_run.mp h
    exact ⟨rfl, .inl rfl, fun _ => id⟩
  | updateFinality finality =>
    obtain ⟨-, -, -, -, rfl⟩ := updateFinality_run.mp h
    exact ⟨rfl, .inr ⟨finality, rfl⟩, fun _ => id⟩
  | appendJournal entry =>
    obtain ⟨-, -, -, -, rfl⟩ := appendJournal_run.mp h
    exact ⟨rfl, .inl rfl, fun _ => id⟩

/-- **Every call keeps the chain well formed**, whether it succeeds or fails. -/
theorem Call.wellFormed (call : Call B H) (hs : WellFormed s) : WellFormed (call.next s) := by
  unfold Call.next
  rcases hrun : call.exec.run s with ⟨err | u, t⟩
  · rw [Call.atomic hs.unconfigured hrun]
    exact hs
  · cases call with
    | configureIndex start => exact configureIndex_wellFormed hs hrun
    | commitCanonical bundle checkpoint => exact commitCanonical_wellFormed hs hrun
    | commitCanonicalSegment bundles =>
      obtain ⟨result, h, rfl⟩ := run_map_ok hrun
      exact commitCanonicalSegment_wellFormed hs h
    | applyReorg reorg => exact applyReorg_wellFormed hs hrun
    | replaceHighestCanonicalSegment replacement =>
      obtain ⟨result, h, rfl⟩ := run_map_ok hrun
      exact replaceHighestCanonicalSegment_wellFormed hs h
    | refreshCanonical bundle options => exact refreshCanonical_wellFormed hs hrun
    | updateFinality finality =>
      obtain ⟨-, -, -, -, rfl⟩ := updateFinality_run.mp hrun
      exact ⟨hs.stored, hs.canonical, hs.unconfigured, hs.normalized⟩
    | appendJournal entry =>
      obtain ⟨-, -, -, -, rfl⟩ := appendJournal_run.mp hrun
      exact ⟨hs.stored, hs.canonical, hs.unconfigured, hs.normalized⟩

theorem wellFormed_runCalls (calls : List (Call B H)) (hs : WellFormed s) :
    WellFormed (runCalls s calls) := by
  induction calls generalizing s with
  | nil => exact hs
  | cons call rest ih => exact ih (call.wellFormed hs)

end Preservation

end Store
