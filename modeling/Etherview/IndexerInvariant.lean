import Etherview.IndexerLane
import Etherview.StoreBoundary

/-! # The chain invariant over whole runs

    `ChainInvariant` is what every state of a configured index satisfies while one
    live lane and any number of backfill lanes work on it.  One disciplined call keeps
    it (`.disciplined_anchored`); `live_chain_invariant` follows for every
    interleaving, with an arbitrary block source. -/

namespace Store

open IntervalSet Transact List Option Fin

variable {B H : Type} [DecidableEq H] [ChainBundle B H]

/-- The canonical chain, its coverage and its checkpoint belong together. -/
structure ChainInvariant (start : Uint64) (s : MemoryChain B H) : Prop where
  /-- The ranges are sorted, disjoint and not adjacent. -/
  normalized : Normalized s.coverage
  /-- A height is canonical exactly when it is covered. -/
  covered : ∀ n, s.refAt n ≠ none ↔ Covers s.coverage n
  /-- Neighbours are parent-linked. -/
  links : Links s
  /-- The core checkpoint exists exactly when the first range starts at `start`. -/
  checkpoint_iff : s.checkpoints.lookup coreCheckpoint ≠ none ↔
    ∃ first ∈ s.coverage.head?, first.start = start
  /-- It is then the canonical block at the end of that range. -/
  checkpoint_eq : ∀ first ∈ s.coverage.head?, first.start = start → ∃ r,
    s.refAt first.stop = some r
      ∧ s.checkpoints.lookup coreCheckpoint = some (newCoreCheckpoint r)
  /-- The tip is the end of the last range. -/
  tip : s.tip = s.coverage.getLast?.bind fun last => s.refAt last.stop

/-- The canonical invariant of a chain without blocks below the configured start. -/
structure Anchored (start : Uint64) (s : MemoryChain B H) : Prop where
  invariant : CanonicalInvariant start s
  above : ∀ n, s.refAt n ≠ none → start ≤ n

namespace Anchored

variable {start : Uint64} {s t : MemoryChain B H}

theorem wellFormed (h : Anchored start s) : WellFormed s := h.invariant.wellFormed

theorem covered (h : Anchored start s) (n : Uint64) :
    s.refAt n ≠ none ↔ Covers s.coverage n := by
  rw [h.invariant.covered n]
  exact ⟨fun hn => ⟨h.above n hn, hn⟩, fun hn => hn.2⟩

section

variable (h : Anchored start s)
include h

/-- The tip is the block at the end of the last range. -/
theorem tip_eq : s.tip = s.coverage.getLast?.bind fun last => s.refAt last.stop := by
  have hs := h.wellFormed
  cases hlast : s.coverage.getLast? with
  | none =>
    have hnil := getLast?_eq_none_iff.mp hlast
    refine hs.tip_none.mpr fun n => ?_
    by_contra hn
    rw [← ne_eq, h.covered, hnil] at hn
    exact covers_nil n hn
  | some last =>
    obtain ⟨r, hr⟩ := ne_none_iff_exists'.mp
      ((h.covered last.stop).mpr (covers_last hs.normalized hlast))
    have hnumber := (hs.refAt_some hr).1
    rw [bind_some, hr, hs.tip_some, hnumber]
    refine ⟨hr, fun n hn => ?_⟩
    obtain ⟨front, hfront⟩ := getLast?_eq_some_iff.mp hlast
    have hnorm := hs.normalized
    have hcov := (h.covered n).mp hn
    rw [hfront] at hnorm hcov
    exact hnorm.le_last hcov

/-- An anchored chain satisfies the invariant of chains. -/
theorem chainInvariant : ChainInvariant start s := by
  have hcheckpoint := h.invariant.checkpoint
  unfold CheckpointAtEnd at hcheckpoint
  have hend : ∀ first ∈ s.coverage.head?, first.start = start → ∃ r,
      s.refAt first.stop = some r
        ∧ s.checkpoints.lookup coreCheckpoint = some (newCoreCheckpoint r) := by
    intro first hfirst hstart
    obtain ⟨rest, hrest⟩ : ∃ rest, s.coverage = first :: rest :=
      ⟨_, eq_cons_of_mem_head? hfirst⟩
    have hcontiguous : contiguousEnd start s.coverage = some first.stop := by
      rw [hrest, contiguousEnd, if_pos hstart]
    obtain ⟨r, hr⟩ := h.invariant.contiguous_canonical hcontiguous
    refine ⟨r, hr, ?_⟩
    rw [hcheckpoint, hcontiguous, bind_some, hr]
    rfl
  refine ⟨h.wellFormed.normalized, h.covered, h.invariant.links, ⟨fun hne => ?_, ?_⟩, hend,
    h.tip_eq⟩
  · cases hcov : s.coverage with
    | nil =>
      rw [hcov] at hcheckpoint
      exact absurd hcheckpoint hne
    | cons first rest =>
      refine ⟨first, rfl, ?_⟩
      by_contra hstart
      rw [hcov, contiguousEnd, if_neg hstart] at hcheckpoint
      exact hne hcheckpoint
  · rintro ⟨first, hfirst, hstart⟩
    obtain ⟨r, -, hr⟩ := hend first hfirst hstart
    rw [hr]
    exact some_ne_none _

/-- A rebase above the start leaves nothing below it. -/
theorem above_rebased {cut : Uint64} {detached : List (BlockRef H)}
    {items : List (BlockRef H × B)} (hrebased : Rebased s t cut detached items)
    (hcut : start ≤ cut) : ∀ n, t.refAt n ≠ none → start ≤ n := by
  intro n hn
  by_cases hle : cut ≤ n
  · exact le_trans hcut hle
  · rw [hrebased.refAt_below (not_le.mp hle)] at hn
    exact h.above n hn

end

end Anchored

/-! ## One call -/

section Step

variable [ToString H] {start : Uint64} {s t : MemoryChain B H}

section

variable (h : Anchored start s)
include h

omit [ToString H] in
/-- A disciplined replacement meets the conditions of the repository boundary. -/
theorem replacement_keeps {replacement : SparseCanonicalReplacement B H}
    {items : List (BlockRef H × B)}
    (hdisc : (Call.replaceHighestCanonicalSegment replacement).Disciplined s)
    (hrebased : Rebased s t replacement.cut replacement.detached.val items)
    (hacc : SparseAccepted replacement items)
    (hmax : ∀ a ∈ replacement.ancestor, a.number ≠ maxUint64) :
    ReplacementKeeps start s replacement := by
  intro a ha
  obtain ⟨hcanonical, hbelow⟩ := hdisc a ha
  have hstart : start ≤ a.number := h.above _ (by rw [hcanonical]; exact some_ne_none _)
  refine ⟨fun bundle hbundle =>
    ⟨?_, fun _ r hr => ?_, fun last hlast hlastmax hkept upper hupper => ?_⟩,
    fun _ => .inl fun d hd hds => ?_⟩
  · rw [le_def, val_add_one (hmax a ha)]
    exact Nat.le_succ_of_le hstart
  · rw [hcanonical] at hr
    cases hr
    rfl
  · -- the height above the attached branch has been detached
    obtain ⟨p, hp, rfl⟩ := (attached_ref_iff hacc.copies hacc.owned).mp
      ⟨bundle, mem_of_getLast? hbundle, hlast⟩
    refine absurd hkept (hrebased.detached_all _ ?_ (by rw [hupper]; exact some_ne_none _))
    refine le_trans (hrebased.items_above p hp) ?_
    rw [le_def, val_add_one hlastmax]
    exact Nat.le_succ _
  · have := hbelow d hd
    rw [hds] at this
    exact absurd hstart (not_le.mpr this)

/-- **A disciplined call** keeps the invariant. -/
theorem Call.disciplined_anchored {call : Call B H} {u : Unit}
    (hdisc : call.Disciplined s) (hrun : call.exec.run s = (.ok u, t)) : Anchored start t := by
  have hs := h.wellFormed
  have hkeeps := (call_keeps_invariant_iff h.invariant hrun).mpr
  cases call with
  | configureIndex configured => exact absurd hdisc id
  | commitCanonical bundle checkpoint =>
    have hnone : s.configuredStart = none := hdisc
    rw [h.invariant.configured] at hnone
    cases hnone
  | commitCanonicalSegment bundles =>
    refine ⟨hkeeps trivial, fun n hn => ?_⟩
    obtain ⟨result, hsegment, rfl⟩ := Tx.run_map_ok hrun
    obtain ⟨items, start', -, heff⟩ := commitCanonicalSegment_effect hs hsegment
    cases heff.configured.symm.trans h.invariant.configured
    rcases (heff.moved.refAt_ne_none n).mp hn with ⟨hold, -⟩ | ⟨p, hp, rfl⟩
    · exact h.above n hold
    · exact heff.above p hp
  | applyReorg reorg =>
    obtain ⟨items, hrebased, hmax, -⟩ := applyReorg_rebased hs hdisc hrun
    refine ⟨hkeeps (.inl hdisc.2.1), h.above_rebased hrebased ?_⟩
    -- the ancestor is canonical, so it is not below the start
    have hstart := h.above _ (by rw [hdisc.1]; exact some_ne_none _)
    rw [le_def, val_add_one hmax]
    exact Nat.le_succ_of_le hstart
  | replaceHighestCanonicalSegment replacement =>
    obtain ⟨result, hreplace, rfl⟩ := Tx.run_map_ok hrun
    obtain ⟨items, hrebased, hacc, hmax⟩ :=
      replaceHighestCanonicalSegment_rebased hs hdisc hreplace
    have hinv := hkeeps (replacement_keeps h hdisc hrebased hacc hmax)
    refine ⟨hinv, h.above_rebased hrebased ?_⟩
    rw [SparseCanonicalReplacement.cut]
    cases hanc : replacement.ancestor with
    | none =>
      -- without an ancestor the cut is the start of a covered range
      obtain ⟨items', heff⟩ :=
        replaceHighestCanonicalSegment_effect hs h.invariant.configured hreplace
      exact h.invariant.start_le
        ⟨replacement.range, mem_of_getLast? heff.highest, le_rfl, hacc.proper⟩
    | some a =>
      have hstart := h.above _ (by rw [(hdisc a hanc).1]; exact some_ne_none _)
      show start ≤ a.number + 1
      rw [le_def, val_add_one (hmax a hanc)]
      exact Nat.le_succ_of_le hstart
  | refreshCanonical bundle options =>
    refine ⟨hkeeps trivial, ?_⟩
    rw [refreshCanonical_refAt hs hrun]
    exact h.above
  | updateFinality finality =>
    refine ⟨hkeeps trivial, ?_⟩
    obtain ⟨-, -, -, -, rfl⟩ := updateFinality_run.mp hrun
    exact h.above
  | appendJournal entry =>
    refine ⟨hkeeps trivial, ?_⟩
    obtain ⟨-, -, -, -, rfl⟩ := appendJournal_run.mp hrun
    exact h.above

/-- A disciplined call keeps the invariant whether it succeeds or fails. -/
theorem Call.next_anchored {call : Call B H} (hdisc : call.Disciplined s) :
    Anchored start (call.next s) := by
  rw [Call.next]
  rcases hrun : call.exec.run s with ⟨err | u, t⟩
  · rw [Call.atomic h.wellFormed.unconfigured hrun]
    exact h
  · exact Call.disciplined_anchored h hdisc hrun

end

end Step

end Store

namespace Indexer

open Store Interaction

variable {B H : Type} [DecidableEq H] [ChainBundle B H] [ToString H]

omit [ToString H] in
theorem configured_anchored (start : Uint64) :
    Anchored start (MemoryChain.configured start : MemoryChain B H) :=
  ⟨configured_invariant start, fun n hn => absurd (configured_refAt start n) hn⟩

/-- **The chain invariant.**  It holds in every state that a live lane and any number
    of backfill lanes reach on a fresh index, whatever the block source answers. -/
theorem live_chain_invariant (c : Canonicalizer) {start : Uint64} {t : MemoryChain B H}
    (h : Reached c ((Call.configureIndex start).next MemoryChain.empty) t) :
    ChainInvariant start t := by
  have hanchored : Anchored start t := lane_safe (fun _ hinv => hinv.wellFormed)
      (fun _ _ hinv hdisc _ => Call.next_anchored hinv hdisc) (configured_anchored start) h
  exact hanchored.chainInvariant

/-! ## A race -/

section Race

/-- A block above a gap. -/
def island5 : TermBundle := ⟨5, .genesis, 0⟩

/-- A child of the block above the gap. -/
def island6 : TermBundle := ⟨6, island5.hash, 0⟩

/-- Another child of the block above the gap. -/
def fork6 : TermBundle := ⟨6, island5.hash, 1⟩

/-- Height 0 and a disconnected range from 5 to 6. -/
def raceStart : MemoryChain TermBundle TermHash :=
  (Call.commitCanonicalSegment [island5, island6]).next
    ((Call.commitCanonicalSegment [block0]).next ((Call.configureIndex 0).next .empty))

theorem raceStart_anchored : Anchored 0 raceStart := by
  have hcommit : ∀ (bundles : List TermBundle) (s : MemoryChain TermBundle TermHash),
      Anchored 0 s → Anchored 0 ((Call.commitCanonicalSegment bundles).next s) :=
    fun bundles s hs => Call.next_anchored hs trivial
  exact hcommit _ _ (hcommit _ _ (configured_anchored 0))

/-- The live lane has read the chain for a new head at height 6 … -/
def raceLane : IndexM TermBundle TermHash Unit × MemoryChain TermBundle TermHash :=
  ((LiveOp.applyHead fork6).program plainCanonicalizer).advance memoryServe (fun _ _ => true) 9
    raceStart

/-- … a backfill lane commits height 1, and the live lane goes on. -/
def raceEnd : IndexM TermBundle TermHash Unit × MemoryChain TermBundle TermHash :=
  raceLane.1.advance memoryServe (fun _ _ => true) 8
    ((Call.commitCanonicalSegment [block1]).next raceLane.2)

/-- The chain after the race is reached. -/
theorem race_reached :
    Reached plainCanonicalizer ((Call.configureIndex 0).next .empty) raceEnd.2 := by
  have hcommit : ∀ (bundles : List TermBundle) (s : MemoryChain TermBundle TermHash),
      otherLanes (fun _ _ => True) s ((Call.commitCanonicalSegment bundles).next s) :=
    fun bundles _ => ⟨_, .commit bundles, fun _ => trivial, rfl⟩
  have hstart : Reaches (laneWorld fun _ _ => True) (otherLanes fun _ _ => True)
      (liveOps plainCanonicalizer) ((Call.configureIndex 0).next .empty) none raceStart :=
    (Relation.ReflTransGen.refl.tail (.env (hcommit [block0] _))).tail
      (.env (hcommit [island5, island6] _))
  have hserve : ∀ (request : Request TermBundle TermHash) s, true = true →
      (laneWorld fun _ _ => True).serves request s _ _ := laneWorld_serve fun _ _ _ _ _ => trivial
  have hlane := reaches_advance hserve 9 (hstart.tail (.start ⟨.applyHead fork6, rfl⟩))
  exact ⟨_, reaches_advance hserve 8 (hlane.tail (.env (hcommit [block1] _)))⟩

/-- A head that is replaced while a gap below it is filled. -/
theorem live_chain_invariant_race :
    ChainInvariant 0 raceEnd.2 ∧ raceEnd.2.tip = some fork6.ref
      ∧ raceEnd.2.coverage = [⟨0, 1⟩, ⟨5, 6⟩] :=
  ⟨live_chain_invariant plainCanonicalizer race_reached, by decide +kernel, by decide +kernel⟩

end Race

end Indexer
