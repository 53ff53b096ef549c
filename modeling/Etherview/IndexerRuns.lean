import Etherview.IndexerSafe
import Etherview.SyncerGaps

/-! # What a run leaves to its readers

    Consequences of the lane rule for whoever reads the index: finality survives every run
    and every restart of the live lane, two indexes with a common block have a common
    history below it, and the backfill runs out of work exactly when the core checkpoint has
    arrived. -/

namespace Indexer

open Store Syncer Interaction Transact IntervalSet List Option

variable {B H : Type} [DecidableEq H] [ChainBundle B H] [ToString H] {c c' : Canonicalizer}
  {start start' : Uint64} {s t : MemoryChain B H}

/-! ## Finality -/

/-- **Finality is permanent in live runs.**  The live lane may be stopped in any reached
    state, also in the middle of an operation, and started again with any configuration: what
    was finalized stays canonical, with everything below it, and the marker does not go back. -/
theorem live_finality_permanent
    (hs : Reached c ((Call.configureIndex start).next MemoryChain.empty) s)
    (ht : Reached c' s t) : KeepsFinalized s t := by
  obtain ⟨⟨hwell, hfin⟩, -⟩ :=
    reached_keepsFinalized (configured_invariant start).wellFormed
    (fun marker hmarker => by cases hmarker) hs
  exact (reached_keepsFinalized hwell hfin ht).2

/-- The chain after a reorg at height 2, with height 0 finalized. -/
def reorged : MemoryChain TermBundle TermHash := moved (fun _ _ => true) block2

theorem reorged_reached :
    Reached plainCanonicalizer ((Call.configureIndex 0).next MemoryChain.empty) reorged :=
  moved_reached trivial (fun _ _ _ _ _ => trivial) (by decide +kernel) (by decide +kernel)

theorem reached_commit (c : Canonicalizer) (bundles : List B) (s : MemoryChain B H) :
    Reached c s ((Call.commitCanonicalSegment bundles).next s) :=
  ⟨none, .single (.env ⟨_, .commit bundles, fun _ => trivial, rfl⟩)⟩

/-- The finalized block of the chain after a reorg stays. -/
theorem live_finality_permanent_reorged : reorged.finalized = some block0.ref
    ∧ KeepsFinalized reorged ((Call.commitCanonicalSegment [island5]).next reorged) :=
  ⟨by decide +kernel, live_finality_permanent reorged_reached
    (reached_commit plainCanonicalizer _ _)⟩

/-! ## Two indexes -/

theorem reached_anchored
    (h : Reached c ((Call.configureIndex start).next MemoryChain.empty) t) : Anchored start t :=
  lane_safe (fun _ hinv => hinv.wellFormed) (fun _ _ hinv hdisc _ => Call.next_anchored hinv hdisc)
    (configured_anchored start) h

/-- **Two indexes agree below a common block.**  Whatever their starts, their block sources
    and their histories: two indexes with the same block at a height have the same blocks at
    all heights that both cover down from there. -/
theorem indexes_agree
    (hs : Reached c ((Call.configureIndex start).next MemoryChain.empty) s)
    (ht : Reached c' ((Call.configureIndex start').next MemoryChain.empty) t) {low high : Uint64}
    (hsame : s.refAt high = t.refAt high)
    (hcovered : ∀ n, low ≤ n → n ≤ high → Covers s.coverage n ∧ Covers t.coverage n)
    (n : Uint64) (hlow : low ≤ n) (hhigh : n ≤ high) : s.refAt n = t.refAt n := by
  have hs := reached_anchored hs
  have ht := reached_anchored ht
  have hread : ∀ m, low ≤ m → m ≤ high → (∃ r, s.refAt m = some r)
      ∧ ∃ r, t.refAt m = some r :=
    fun m hl hh => ⟨ne_none_iff_exists'.mp ((hs.covered m).mpr (hcovered m hl hh).1),
      ne_none_iff_exists'.mp ((ht.covered m).mpr (hcovered m hl hh).2)⟩
  -- downwards from the common block: the parent of the next block is the block here
  induction hd : high.val - n.val using Nat.strongRecOn generalizing n with
  | ind d ih =>
    subst hd
    rcases hhigh.eq_or_lt with rfl | hlt
    · exact hsame
    have hnext := covBy_add_one n high hlt
    have hle := hnext.ge_of_gt hlt
    have hmax : n ≠ maxUint64 := fun h => not_lt.mpr (h ▸ le_maxUint64 high) hlt
    have hup := ih _ (Nat.sub_lt_sub_left hlt hnext.lt) (n + 1) (le_trans hlow hnext.le) hle rfl
    obtain ⟨⟨r, hr⟩, r', hr'⟩ := hread n hlow hhigh
    obtain ⟨⟨u, hu⟩, -⟩ := hread (n + 1) (le_trans hlow hnext.le) hle
    have hhash : r.hash = r'.hash := (hs.invariant.links n r u hmax hr hu).symm.trans
      (ht.invariant.links n r' u hmax hr' (hup ▸ hu))
    obtain ⟨bundle, -, hbundle⟩ := ht.wellFormed.refAt_block hr'
    rw [hr, hr', refAt_eq_of_hash hs.wellFormed hr hbundle.1 hhash]

/-- The index after the reorg and one without it, which differ at height 2. -/
theorem indexes_agree_reorged : reorged.refAt 2 ≠ unmarked.refAt 2
    ∧ reorged.refAt 0 = unmarked.refAt 0 := by
  refine ⟨by decide +kernel, indexes_agree reorged_reached (reached_commit plainCanonicalizer _ _)
    (by decide +kernel : reorged.refAt 1 = unmarked.refAt 1) ?_ 0 le_rfl (by decide)⟩
  intro n _ hhigh
  have hin : Covers [⟨0, 2⟩] n :=
    ⟨_, mem_singleton_self _, Fin.zero_le n, le_trans hhigh (by decide)⟩
  exact ⟨(by decide +kernel : reorged.coverage = [⟨0, 2⟩]) ▸ hin,
    (by decide +kernel : unmarked.coverage = [⟨0, 2⟩]) ▸ hin⟩

/-! ## The end of the backfill -/

/-- The contiguous end is the end of a first range at the start. -/
theorem contiguousEnd_eq_some {ranges : List BlockRange} {stop : Uint64} :
    contiguousEnd start ranges = some stop ↔ ∃ rest, ranges = ⟨start, stop⟩ :: rest := by
  cases ranges with
  | nil => simp [contiguousEnd]
  | cons first rest =>
    obtain ⟨lower, upper⟩ := first
    simp [contiguousEnd]

omit [ToString H] in
/-- A range from the start is covered exactly when the first range reaches to its end. -/
theorem contiguousEnd_reaches (h : Anchored start t) {through : Uint64} (hle : start ≤ through) :
    (∀ n, start ≤ n → n ≤ through → Covers t.coverage n) ↔
      ∃ stop, contiguousEnd start t.coverage = some stop ∧ through ≤ stop := by
  have hnormal := h.wellFormed.normalized
  constructor
  · intro hall
    obtain ⟨stop, hstop⟩ := ne_none_iff_exists'.mp ((contiguousEnd_ne_none hnormal
      fun n => h.invariant.start_le).mpr (hall start le_rfl hle))
    obtain ⟨rest, hrest⟩ := contiguousEnd_eq_some.mp hstop
    refine ⟨stop, hstop, not_lt.mp fun hlt => ?_⟩
    rw [hrest] at hnormal hall
    -- above the first range there is a hole below the next covered height
    have habove : Covers rest through := (covers_cons.mp (hall through hle le_rfl)).resolve_left
      fun hhas => not_lt.mpr hhas.2 hlt
    obtain ⟨x, hlow, hhigh, hno⟩ := hnormal.gap habove
    exact hno (hall x (le_trans (hnormal.proper _ mem_cons_self) hlow.le) hhigh.le)
  · rintro ⟨stop, hstop, hthrough⟩ n hlow hhigh
    obtain ⟨rest, hrest⟩ := contiguousEnd_eq_some.mp hstop
    rw [hrest]
    exact covers_cons.mpr (.inl ⟨hlow, le_trans hhigh hthrough⟩)

/-- **The backfill is done when the checkpoint has arrived.**  In every reached state the
    enumeration of gaps up to a height finds nothing exactly when the core checkpoint is at
    or above the height. -/
theorem backfill_done_iff
    (h : Reached c ((Call.configureIndex start).next MemoryChain.empty) t) {through : Uint64}
    (hstart : start ≤ through) (batch : Uint64) {limit : Int} (hlimit : 0 < limit) :
    missingBackfillRanges .wrapping start t.coverage through batch limit = some [] ↔
      ∃ checkpoint, t.checkpoints.lookup coreCheckpoint = some checkpoint
        ∧ through ≤ checkpoint.contiguousThrough := by
  have ha := reached_anchored h
  have hroom := effectiveLimit_pos hlimit
  obtain ⟨result, hresult, hexact⟩ := coverageLoop_exact (chunkBlocks_pos batch)
    (Walk.initial ha.wellFormed.normalized hstart hroom)
  have hrun : missingBackfillRanges .wrapping start t.coverage through batch limit
      = some result := by
    rw [missingBackfillRanges, if_neg (not_or.mpr ⟨not_lt.mpr hstart, not_le.mpr hlimit⟩)]
    exact hresult _ Arithmetic.wrapping_lenient
  have hnone : result = [] ↔ ∀ n, start ≤ n → n ≤ through → Covers t.coverage n := by
    constructor
    · rintro rfl n hlow hhigh
      by_contra hn
      exact covers_nil n ((hexact.all hroom n).mpr ⟨hlow, hhigh, hn⟩)
    · intro hall
      refine eq_nil_iff_forall_not_mem.mpr fun r hr => ?_
      obtain ⟨hproper, -, hlow, hhigh, hno⟩ := hexact.chunks r hr
      exact hno r.start ⟨le_rfl, hproper⟩ (hall _ hlow (le_trans hproper hhigh))
  rw [hrun, some_inj, hnone, contiguousEnd_reaches ha hstart, ha.invariant.checkpoint]
  constructor
  · rintro ⟨stop, hstop, hle⟩
    obtain ⟨r, hr⟩ := ha.invariant.contiguous_canonical hstop
    obtain ⟨rfl, -⟩ := ha.wellFormed.refAt_some hr
    exact ⟨newCoreCheckpoint r, by rw [hstop, bind_some, hr]; rfl, hle⟩
  · rintro ⟨checkpoint, hlookup, hle⟩
    obtain ⟨r, hr, rfl⟩ := map_eq_some_iff.mp hlookup
    obtain ⟨stop, hstop, hread⟩ := bind_eq_some_iff.mp hr
    exact ⟨stop, hstop, (ha.wellFormed.refAt_some hread).1 ▸ hle⟩

/-- Two ranges with a gap: nothing is missing up to the end of the first one. -/
theorem backfill_done_race :
    missingBackfillRanges .wrapping 0 raceEnd.2.coverage 1 0 1 = some [] :=
  (backfill_done_iff race_reached (by decide) 0 (by decide)).mpr
    ⟨newCoreCheckpoint block1.ref, by decide +kernel, by decide⟩

end Indexer
