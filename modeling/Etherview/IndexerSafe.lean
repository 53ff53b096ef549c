import Etherview.IndexerInvariant

/-! # The stored markers under a live lane

    A reorg is admitted by looking at the finalized marker only, so the finalized
    marker stays canonical in every run (`.leaves_finalized`).  The safe marker stays
    canonical as long as every reorg and every replacement that goes below it attaches
    its block again, and no longer (`safe_marker_canonical`).  `safe_marker_lost` is a run
    in which one does not: the safe marker is left behind, and the next `UpdateFinality`
    with the new safe block of the same height is refused as a regression. -/

namespace Store

open IntervalSet Transact Tx

variable {B H : Type} [DecidableEq H] [ChainBundle B H]

/-- The stored safe marker. -/
def MemoryChain.safe (s : MemoryChain B H) : Option (BlockRef H) :=
  s.finality.bind Finality.safe

/-- The stored safe marker is canonical. -/
def SafeCanonical (s : MemoryChain B H) : Prop :=
  ∀ marker, s.safe = some marker → s.canonical.lookup marker.number = some marker.hash

/-- A reorg or a replacement that does not reach down to a height. -/
def Call.Leaves (n : Uint64) : Call B H → Prop
  | .applyReorg reorg => n ≤ reorg.ancestor.number
  | .replaceHighestCanonicalSegment replacement =>
    (∀ a ∈ replacement.ancestor, n ≤ a.number)
      ∧ (replacement.ancestor = none → n < replacement.range.start)
  | _ => True

/-- The block of a marker is among some bundles. -/
def Carries (bundles : List B) (marker : BlockRef H) : Prop :=
  ∃ b ∈ bundles, ∃ r, refFromBundle b = .ok r ∧ r.number = marker.number
    ∧ r.hash = marker.hash

/-- A reorg or a replacement that attaches the block of a marker if it takes the chain
    off below it. -/
def Call.Reattaches (marker : BlockRef H) : Call B H → Prop
  | .applyReorg reorg =>
    reorg.ancestor.number < marker.number → Carries reorg.attached.val marker
  | .replaceHighestCanonicalSegment replacement =>
    replacement.cut ≤ marker.number → Carries replacement.attached.val marker
  | _ => True

/-- A call that keeps the block of the stored safe marker. -/
def Call.SparesSafe (call : Call B H) (s : MemoryChain B H) : Prop :=
  ∀ marker, s.safe = some marker → call.Reattaches marker

section Step

variable {s t : MemoryChain B H}

/-- Below the cut nothing changes. -/
theorem Rebased.lookup_below {cut : Uint64} {detached : List (BlockRef H)}
    {items : List (BlockRef H × B)} (h : Rebased s t cut detached items) {n : Uint64}
    (hn : n < cut) : t.canonical.lookup n = s.canonical.lookup n := by
  rw [← h.moved.after.refAt_map_hash, ← h.moved.before.refAt_map_hash, h.refAt_below hn]

/-- From the cut on the canonical blocks are the attached ones. -/
theorem Rebased.lookup_above {cut : Uint64} {detached : List (BlockRef H)}
    {items : List (BlockRef H × B)} (h : Rebased s t cut detached items) {marker : BlockRef H}
    (hn : cut ≤ marker.number) :
    t.canonical.lookup marker.number = some marker.hash ↔
      ∃ p ∈ items, p.1.number = marker.number ∧ p.1.hash = marker.hash := by
  rw [← h.moved.after.refAt_map_hash, Option.map_eq_some_iff]
  constructor
  · rintro ⟨r, hr, hhash⟩
    obtain ⟨p, hp, hnumber⟩ := (h.refAt_above hn).mp (by rw [hr]; exact Option.some_ne_none r)
    have hread := h.moved.refAt_attached hp
    rw [hnumber, hr] at hread
    cases hread
    exact ⟨p, hp, hnumber, hhash⟩
  · rintro ⟨p, hp, hnumber, hhash⟩
    refine ⟨p.1, ?_, hhash⟩
    rw [← hnumber]
    exact h.moved.refAt_attached hp

omit [DecidableEq H] in
/-- The bundles carry the block of a marker iff their copies do. -/
theorem carries_iff {bundles : List B} {items : List (BlockRef H × B)}
    (hcopies : List.Forall₂ (fun b p => cloneBundle b = .ok p.2) bundles items)
    (howned : ∀ p ∈ items, Owned p) (marker : BlockRef H) :
    Carries bundles marker ↔
      ∃ p ∈ items, p.1.number = marker.number ∧ p.1.hash = marker.hash := by
  constructor
  · rintro ⟨b, hb, r, hr, hsame⟩
    obtain ⟨p, hp, rfl⟩ := (attached_ref_iff hcopies howned).mp ⟨b, hb, hr⟩
    exact ⟨p, hp, hsame⟩
  · rintro ⟨p, hp, hsame⟩
    obtain ⟨b, hb, hr⟩ := (attached_ref_iff hcopies howned).mpr ⟨p, hp, rfl⟩
    exact ⟨b, hb, p.1, hr, hsame⟩

variable [ToString H] {call : Call B H} {u : Unit}

/-- A call that does not reach down to a height keeps its block. -/
theorem Call.keeps_height (hs : WellFormed s)
    (hdisc : call.Disciplined s) (hrun : call.exec.run s = (.ok u, t)) {n : Uint64}
    (hleaves : call.Leaves n) {hash : H} (hn : s.canonical.lookup n = some hash) :
    t.canonical.lookup n = some hash := by
  cases call with
  | configureIndex start => exact absurd hdisc id
  | commitCanonical bundle checkpoint =>
    exact commitCanonical_preserved hrun n n (le_refl n) hash hn
  | commitCanonicalSegment bundles =>
    obtain ⟨result, hsegment, rfl⟩ := run_map_ok hrun
    exact commitCanonicalSegment_preserved hs hsegment n n (le_refl n) hash hn
  | applyReorg reorg =>
    obtain ⟨items, hrebased, hmax, -⟩ := applyReorg_rebased hs hdisc hrun
    -- the height is at or below the ancestor, and the rebase is above it
    have hlt : n < reorg.ancestor.number + 1 := by
      rw [Fin.lt_def, val_add_one hmax]
      exact Nat.lt_succ_of_le hleaves
    rw [hrebased.lookup_below hlt]
    exact hn
  | replaceHighestCanonicalSegment replacement =>
    obtain ⟨result, hreplace, rfl⟩ := run_map_ok hrun
    obtain ⟨items, hrebased, -, hmax⟩ :=
      replaceHighestCanonicalSegment_rebased hs hdisc hreplace
    have hlt : n < replacement.cut := by
      rw [SparseCanonicalReplacement.cut]
      cases hanc : replacement.ancestor with
      | none => exact hleaves.2 hanc
      | some a =>
        show n < a.number + 1
        rw [Fin.lt_def, val_add_one (hmax a hanc)]
        exact Nat.lt_succ_of_le (hleaves.1 a hanc)
    rw [hrebased.lookup_below hlt]
    exact hn
  | refreshCanonical bundle options =>
    obtain ⟨copy, reference, -, -, -, -, -, rfl⟩ := refreshCanonical_run.mp hrun
    exact hn
  | updateFinality finality =>
    obtain ⟨-, -, -, -, rfl⟩ := updateFinality_run.mp hrun
    exact hn
  | appendJournal entry =>
    obtain ⟨-, -, -, -, rfl⟩ := appendJournal_run.mp hrun
    exact hn

/-- **A canonical block stays canonical iff the call keeps it.** -/
theorem Call.reattaches_iff (hs : WellFormed s) (hdisc : call.Disciplined s)
    (hrun : call.exec.run s = (.ok u, t)) {marker : BlockRef H}
    (hmarker : s.canonical.lookup marker.number = some marker.hash) :
    t.canonical.lookup marker.number = some marker.hash ↔ call.Reattaches marker := by
  cases call with
  | applyReorg reorg =>
    obtain ⟨items, hrebased, hmax, hcopies⟩ := applyReorg_rebased hs hdisc hrun
    rw [Call.Reattaches, carries_iff hcopies hrebased.moved.owned, ← next_le_iff hmax]
    by_cases hn : reorg.ancestor.number + 1 ≤ marker.number
    · rw [hrebased.lookup_above hn, imp_iff_right hn]
    · rw [hrebased.lookup_below (not_le.mp hn)]
      exact iff_of_true hmarker fun h => absurd h hn
  | replaceHighestCanonicalSegment replacement =>
    obtain ⟨result, hreplace, rfl⟩ := run_map_ok hrun
    obtain ⟨items, hrebased, hacc, -⟩ :=
      replaceHighestCanonicalSegment_rebased hs hdisc hreplace
    rw [Call.Reattaches, carries_iff hacc.copies hacc.owned]
    by_cases hn : replacement.cut ≤ marker.number
    · rw [hrebased.lookup_above hn, imp_iff_right hn]
    · rw [hrebased.lookup_below (not_le.mp hn)]
      exact iff_of_true hmarker fun h => absurd h hn
  | _ =>
    refine iff_of_true ?_ trivial
    exact Call.keeps_height hs hdisc hrun (n := marker.number) trivial hmarker

/-- No successful call reaches down to the finalized height. -/
theorem Call.leaves_finalized
    (hrun : call.exec.run s = (.ok u, t)) : ∀ n ∈ s.finalizedNumber, call.Leaves n := by
  intro n hn
  cases call with
  | applyReorg reorg =>
    obtain ⟨owned, items, ranges, checkpoint, hown, hadm, -⟩ := applyReorg_run hrun
    have := hadm.finalized n hn
    rw [(ownReorg_ok hown).ancestor] at this
    exact this
  | replaceHighestCanonicalSegment replacement =>
    obtain ⟨result, t', hreplace, -⟩ := run_bind_ok.mp hrun
    obtain ⟨items, start, ranges, checkpoint, -, hadm, -⟩ :=
      replaceHighestCanonicalSegment_run hreplace
    exact checkReplacementFinality_ok hadm.finalized n hn
  | _ => trivial

omit [DecidableEq H] [ChainBundle B H] [ToString H] in
/-- A call that leaves a height alone leaves the heights below it alone. -/
theorem Call.Leaves.of_le {m n : Uint64} (h : call.Leaves n) (hmn : m ≤ n) :
    call.Leaves m := by
  cases call with
  | applyReorg reorg => exact le_trans hmn h
  | replaceHighestCanonicalSegment replacement =>
    exact ⟨fun a ha => le_trans hmn (h.1 a ha), fun hnone => lt_of_le_of_lt hmn (h.2 hnone)⟩
  | _ => trivial

/-- Discipline excludes the two calls that write below the finalized height. -/
theorem Call.sparesFinalized (hs : WellFormed s) (hdisc : call.Disciplined s)
    (hok : (call.exec.run s).1.isOk = true) : call.SparesFinalized s := by
  have hrun := Call.run_of_isOk hok
  refine (Call.preserved_iff hs hrun).mp fun n hn m hm hash hlook => ?_
  exact Call.keeps_height hs hdisc hrun ((Call.leaves_finalized hrun n hn).of_le hm) hlook

/-- **One call** keeps the safe marker canonical iff it spares it. -/
theorem Call.next_safe_iff (hs : WellFormed s) (hsafe : SafeCanonical s)
    (hdisc : call.Disciplined s) (hok : (call.exec.run s).1.isOk = true) :
    SafeCanonical (call.next s) ↔ call.SparesSafe s := by
  have hrun := Call.run_of_isOk hok
  rcases (Call.frame hrun).2.1 with hfin | ⟨finality, rfl⟩
  · have hsame : (call.next s).safe = s.safe := by
      rw [MemoryChain.safe, MemoryChain.safe, hfin]
    unfold SafeCanonical Call.SparesSafe
    rw [hsame]
    exact forall₂_congr fun marker hmarker => Call.reattaches_iff hs hdisc hrun
      (hsafe marker hmarker)
  · refine iff_of_true ?_ fun _ _ => trivial
    obtain ⟨-, hcheck, -, -, hnext⟩ := updateFinality_run.mp hrun
    intro marker hmarker
    rw [hnext] at hmarker ⊢
    exact checkMarkerCanonical_ok hs hcheck marker hmarker

/-- The representation invariant with both markers canonical. -/
structure MarkersCanonical (s : MemoryChain B H) : Prop where
  wellFormed : WellFormed s
  finalized : FinalizedCanonical s
  safe : SafeCanonical s

/-- **One call** keeps both markers canonical when it spares the safe one. -/
theorem Call.next_markers (h : MarkersCanonical s) (hdisc : call.Disciplined s)
    (hspares : (call.exec.run s).1.isOk = true → call.SparesSafe s) :
    MarkersCanonical (call.next s) := by
  refine ⟨call.wellFormed h.wellFormed, ?_, ?_⟩
  · exact (call.keepsFinalized h.wellFormed h.finalized
      (Call.sparesFinalized h.wellFormed hdisc)).2
  · by_cases hok : (call.exec.run s).1.isOk = true
    · exact (Call.next_safe_iff h.wellFormed h.safe hdisc hok).mpr (hspares hok)
    · rcases hrun : call.exec.run s with ⟨err | u, t⟩
      · rw [Call.next, hrun, Call.atomic h.wellFormed.unconfigured hrun]
        exact h.safe
      · rw [hrun] at hok
        exact absurd rfl hok

/-! ## The regression check -/

omit [ChainBundle B H] [ToString H] in
/-- A marker that has not gone back, with equal hashes at equal heights, passes. -/
theorem checkMarkerRegression_pass {name : String} {previous next : Option (BlockRef H)}
    (h : ∀ p ∈ previous, ∃ q ∈ next, p.number ≤ q.number
      ∧ (q.number = p.number → q.hash = p.hash)) :
    checkMarkerRegression name previous next = .ok () := by
  cases previous with
  | none => rfl
  | some p =>
    obtain ⟨q, rfl, hle, hsame⟩ := h p rfl
    refine bind_eq_ok.mpr ⟨(), ?_, ?_⟩
    · rw [failIf_eq_ok]
      exact not_lt.mpr hle
    · rw [failIf_eq_ok]
      rintro ⟨hnumber, hne⟩
      exact hne (hsame hnumber)

omit [ToString H] in
/-- `UpdateFinality` fails with a regression only in its regression check. -/
theorem updateFinality_error {finality : Finality H} {err : StoreError} (hs : WellFormed s)
    (hrun : (updateFinality finality).run s = (.error err, t))
    (hpass : checkStoredFinality s finality = .ok ()) : err.kind ≠ .finalityRegress := by
  have hmarker : ∀ (name : String) (marker : Option (BlockRef H)),
      Errs (fun e => e.kind ≠ .finalityRegress) (checkMarkerCanonical s name marker) := by
    intro name marker
    cases marker with
    | none => exact errs_ok
    | some r =>
      refine errs_bind ?_ fun _ _ => errs_failIf fun _ h => by cases h
      rw [hs.canonicalRef_eq]
      exact errs_ok
  rcases run_liftM_bind_error hrun with ⟨he, -⟩ | ⟨_, -, hrun⟩
  · refine (?_ : Errs (fun e => e.kind ≠ .finalityRegress) (validateFinality finality)) err he
    unfold validateFinality
    split
    · exact errs_bind (errs_failIf fun _ h => by cases h) fun _ _ =>
        errs_failIf fun _ h => by cases h
    · exact errs_ok
  rcases run_liftM_bind_error hrun with ⟨he, -⟩ | ⟨_, -, hrun⟩
  · exact hmarker _ _ _ he
  rcases run_liftM_bind_error hrun with ⟨he, -⟩ | ⟨_, -, hrun⟩
  · exact hmarker _ _ _ he
  rcases run_liftM_bind_error hrun with ⟨he, -⟩ | ⟨_, -, hrun⟩
  · rw [hpass] at he
    cases he
  · cases hrun

end Step

end Store

namespace Indexer

open Store Interaction Transact

variable {B H : Type} [DecidableEq H] [ChainBundle B H] [ToString H]

/-- A requested marker is not behind a stored one. -/
def NotBehind (stored requested : Option (BlockRef H)) : Prop :=
  ∀ marker ∈ stored, ∃ r ∈ requested, marker.number ≤ r.number

variable {s : MemoryChain B H}

omit [ToString H] in
/-- A resolved marker that is not behind a canonical stored one passes the check. -/
theorem resolved_passes {name : String}
    {stored requested found : Option (BlockRef H)} (hs : WellFormed s)
    (hstored : ∀ marker ∈ stored, s.canonical.lookup marker.number = some marker.hash)
    (hbehind : NotBehind stored requested) (hresolved : Resolved s requested found) :
    checkMarkerRegression name stored found = .ok () := by
  refine checkMarkerRegression_pass fun marker hmarker => ?_
  obtain ⟨r, hr, hle⟩ := hbehind marker hmarker
  obtain ⟨q, hq, hnumber, -⟩ := hresolved.2 r hr
  refine ⟨q, hq, by rw [hnumber]; exact hle, fun heq => ?_⟩
  have hlook := (hs.refAt_some (hresolved.1 q hq)).2
  rw [heq, hstored marker hmarker] at hlook
  exact (Option.some.inj hlook).symm

/-- With canonical markers, an update that does not go back is not refused as a
    regression, whatever the other lanes do meanwhile. -/
theorem updateFinality_no_regress (h : MarkersCanonical s)
    {safe finalized : Option (BlockRef H)} (hsafe : NotBehind s.safe safe)
    (hfinalized : NotBehind s.finalized finalized) :
    (Canonicalizer.updateFinality safe finalized : IndexM B H Unit).Sat
      (laneWorld fun _ _ => True)
      (fun out _ => ∀ err, out = .error err → err.cause ≠ .store .finalityRegress) s := by
  refine updateFinality_sat (laneWorld_repo _) h.wellFormed ?_ ?_
  · rintro err t - hcause _ ⟨⟩
    exact hcause
  · intro markers t answer u hst ht hs' hf' hrun err herr
    cases answer with
    | ok value => cases herr
    | error storeErr =>
      cases herr
      have hgrown := hst h.wellFormed
      -- other lanes only add blocks, so the stored markers are still canonical
      have hkeep : ∀ marker : BlockRef H, s.canonical.lookup marker.number = some marker.hash →
          t.canonical.lookup marker.number = some marker.hash := by
        intro marker hmarker
        rw [← h.wellFormed.refAt_map_hash] at hmarker
        obtain ⟨r, hr, hhash⟩ := Option.map_eq_some_iff.mp hmarker
        rw [← ht.refAt_map_hash, hgrown.refAt hr, Option.map_some, hhash]
      have hpass : checkStoredFinality t markers = .ok () := by
        rw [checkStoredFinality, hgrown.finality]
        cases hfin : s.finality with
        | none => rfl
        | some previous =>
          refine bind_eq_ok.mpr ⟨(), resolved_passes ht ?_ ?_ hs', resolved_passes ht ?_ ?_ hf'⟩
          · intro marker hmarker
            refine hkeep marker (h.safe marker ?_)
            rw [MemoryChain.safe, hfin]
            exact hmarker
          · rw [MemoryChain.safe, hfin] at hsafe
            exact hsafe
          · intro marker hmarker
            refine hkeep marker (h.finalized marker ?_)
            rw [MemoryChain.finalized, hfin]
            exact hmarker
          · rw [MemoryChain.finalized, hfin] at hfinalized
            exact hfinalized
      have hkind := updateFinality_error ht hrun hpass
      intro hcause
      exact hkind (Cause.store.inj hcause)

/-- The finalized marker stays canonical, and what it finalizes stays. -/
theorem reached_keepsFinalized {c : Canonicalizer} {t : MemoryChain B H} (hs : WellFormed s)
    (hfin : FinalizedCanonical s) (h : Reached c s t) :
    (WellFormed t ∧ FinalizedCanonical t) ∧ KeepsFinalized s t := by
  refine lane_safe
    (fun u (hu : (WellFormed u ∧ FinalizedCanonical u) ∧ KeepsFinalized s u) => hu.1.1)
    (fun call u hu hdisc _ => ?_) ⟨⟨hs, hfin⟩, KeepsFinalized.refl hfin⟩ h
  obtain ⟨hkeeps, hcanonical⟩ :=
    call.keepsFinalized hu.1.1 hu.1.2 (Call.sparesFinalized hu.1.1 hdisc)
  exact ⟨⟨call.wellFormed hu.1.1, hcanonical⟩, hu.2.trans hkeeps⟩

/-- **The safe marker.**  In every reached state the finalized marker is canonical.  In
    every state reached by calls that spare the safe marker, that one is canonical as
    well, and `UpdateFinality` with markers that are not behind the stored ones is not
    refused as a regression.  A successful call of the lane that does not spare a
    canonical safe marker leaves it behind. -/
theorem safe_marker_canonical (c : Canonicalizer) (start : Uint64) (t : MemoryChain B H) :
    (Reached c ((Call.configureIndex start).next MemoryChain.empty) t → FinalizedCanonical t)
      ∧ (ReachedWhere Call.SparesSafe c ((Call.configureIndex start).next MemoryChain.empty) t →
        SafeCanonical t ∧ ∀ safe finalized,
          NotBehind t.safe safe → NotBehind t.finalized finalized →
          (Canonicalizer.updateFinality safe finalized : IndexM B H Unit).Sat
            (laneWorld fun _ _ => True)
            (fun out _ => ∀ err, out = .error err → err.cause ≠ .store .finalityRegress) t)
      ∧ ∀ call : Call B H, Reached c ((Call.configureIndex start).next MemoryChain.empty) t →
        SafeCanonical t → call.Disciplined t → (call.exec.run t).1.isOk = true →
        (SafeCanonical (call.next t) ↔ call.SparesSafe t) := by
  have hinit : MarkersCanonical (MemoryChain.configured start : MemoryChain B H) :=
    ⟨(configured_invariant start).wellFormed, (fun marker hmarker => by cases hmarker),
      (fun marker hmarker => by cases hmarker)⟩
  have hreached : Reached c ((Call.configureIndex start).next MemoryChain.empty) t →
      WellFormed t ∧ FinalizedCanonical t := fun h =>
    (reached_keepsFinalized hinit.wellFormed hinit.finalized h).1
  refine ⟨fun h => (hreached h).2, fun h => ?_, fun call h hsafe hdisc hok => ?_⟩
  · have hmarkers : MarkersCanonical t := lane_safe (fun _ hinv => hinv.wellFormed)
      (fun _ _ hinv hdisc hadmitted => Call.next_markers hinv hdisc hadmitted) hinit h
    exact ⟨hmarkers.safe, fun _ _ hsafe hfinalized =>
      updateFinality_no_regress hmarkers hsafe hfinalized⟩
  · exact Call.next_safe_iff (hreached h).1 hsafe hdisc hok

/-! ## Two runs -/

section Runs

/-- A sibling of the block at height 2. -/
def sibling2 : TermBundle := ⟨2, block1.hash, 1⟩

variable (accept : Request TermBundle TermHash → MemoryChain TermBundle TermHash → Bool)

/-- An operation of the live lane, run to its end. -/
def liveRun (op : LiveOp TermBundle TermHash) (s : MemoryChain TermBundle TermHash) :
    IndexM TermBundle TermHash Unit × MemoryChain TermBundle TermHash :=
  (op.program plainCanonicalizer).advance memoryServe accept 40 s

/-- Heights 0 to 2. -/
def unmarked : MemoryChain TermBundle TermHash :=
  (Call.commitCanonicalSegment [block0, block1, block2]).next ((Call.configureIndex 0).next .empty)

/-- Height 0 is finalized and `safe` is safe. -/
def marked (safe : TermBundle) : MemoryChain TermBundle TermHash :=
  (liveRun accept (.updateFinality (some safe.ref) (some block0.ref)) unmarked).2

/-- The sibling at height 2 becomes the head. -/
def moved (safe : TermBundle) : MemoryChain TermBundle TermHash :=
  (liveRun accept (.applyHead sibling2) (marked accept safe)).2

variable {accept} in
theorem moved_reached {allowed : Call TermBundle TermHash →
    MemoryChain TermBundle TermHash → Prop}
    (hcommit : allowed (.commitCanonicalSegment [block0, block1, block2])
      ((Call.configureIndex 0).next .empty))
    (haccept : ∀ request s, accept request s = true → ∀ call, request = .call call →
      allowed call s) {safe : TermBundle}
    (hmarked : (liveRun accept (.updateFinality (some safe.ref) (some block0.ref))
      unmarked).1.ended = true)
    (hmoved : (liveRun accept (.applyHead sibling2) (marked accept safe)).1.ended = true) :
    ReachedWhere allowed plainCanonicalizer ((Call.configureIndex 0).next .empty)
      (moved accept safe) := by
  have hstart : Reaches (laneWorld allowed) (otherLanes allowed) (liveOps plainCanonicalizer)
      ((Call.configureIndex 0).next .empty) none unmarked :=
    Relation.ReflTransGen.refl.tail (.env ⟨_, .commit _, fun _ => hcommit, rfl⟩)
  have hserve := laneWorld_serve haccept
  have hmark := reaches_ended hserve 40 ⟨.updateFinality (some safe.ref) (some block0.ref), rfl⟩
    hmarked hstart
  exact ⟨none, reaches_ended hserve 40 ⟨.applyHead sibling2, rfl⟩ hmoved hmark⟩

/-- Accept a reorg that does not go below the safe marker. -/
def acceptAboveSafe : Request TermBundle TermHash → MemoryChain TermBundle TermHash → Bool
  | .call (.applyReorg reorg), s =>
    s.safe.all fun marker => decide (marker.number ≤ reorg.ancestor.number)
  | .call (.replaceHighestCanonicalSegment _), _ => false
  | _, _ => true

theorem acceptAboveSafe_spares (request : Request TermBundle TermHash)
    (s : MemoryChain TermBundle TermHash) (h : acceptAboveSafe request s = true)
    (call : Call TermBundle TermHash) (hcall : request = .call call) : call.SparesSafe s := by
  subst hcall
  intro marker hmarker
  cases call with
  | applyReorg reorg =>
    rw [acceptAboveSafe, hmarker] at h
    have hle : marker.number ≤ reorg.ancestor.number := of_decide_eq_true h
    exact fun hlt => absurd hlt (not_lt.mpr hle)
  | replaceHighestCanonicalSegment replacement => cases h
  | _ => trivial

/-- With height 1 safe, the reorg at height 2 spares the marker, and the new head can
    become safe. -/
theorem safe_marker_canonical_sibling :
    SafeCanonical (moved acceptAboveSafe block1)
      ∧ (moved acceptAboveSafe block1).tip = some sibling2.ref
      ∧ (Canonicalizer.updateFinality (some sibling2.ref) (some block0.ref) :
          IndexM TermBundle TermHash Unit).Sat (laneWorld fun _ _ => True)
          (fun out _ => ∀ err, out = .error err → err.cause ≠ .store .finalityRegress)
          (moved acceptAboveSafe block1) := by
  have hreached := moved_reached (fun _ _ => trivial) acceptAboveSafe_spares
    (by decide +kernel : (liveRun acceptAboveSafe
      (.updateFinality (some block1.ref) (some block0.ref)) unmarked).1.ended = true)
    (by decide +kernel)
  have hsafe : (moved acceptAboveSafe block1).safe = some block1.ref := by decide +kernel
  have hfinalized : (moved acceptAboveSafe block1).finalized = some block0.ref := by
    decide +kernel
  obtain ⟨hcanonical, hupdate⟩ := (safe_marker_canonical plainCanonicalizer 0 _).2.1 hreached
  refine ⟨hcanonical, by decide +kernel, hupdate _ _ ?_ ?_⟩
  · rw [hsafe]
    rintro _ ⟨⟩
    exact ⟨sibling2.ref, rfl, by decide⟩
  · rw [hfinalized]
    rintro _ ⟨⟩
    exact ⟨block0.ref, rfl, le_rfl⟩

/-- With height 2 safe, the reorg leaves the marker behind, and the new safe block at
    height 2 is refused. -/
theorem safe_marker_lost : Reached plainCanonicalizer ((Call.configureIndex 0).next .empty)
        (moved (fun _ _ => true) block2)
      ∧ (moved (fun _ _ => true) block2).safe = some block2.ref
      ∧ (moved (fun _ _ => true) block2).refAt 2 = some sibling2.ref
      ∧ ¬ SafeCanonical (moved (fun _ _ => true) block2)
      ∧ ∃ text,
        (liveRun (fun _ _ => true) (.updateFinality (some sibling2.ref) (some block0.ref))
          (moved (fun _ _ => true) block2)).1 = .fail ⟨.store .finalityRegress, text⟩ := by
  refine ⟨moved_reached trivial (fun _ _ _ _ _ => trivial) (by decide +kernel)
    (by decide +kernel),
    by decide +kernel, by decide +kernel, fun h => ?_, ?_⟩
  · exact absurd (h block2.ref (by decide +kernel)) (by decide +kernel)
  · exact ⟨_, rfl⟩

end Runs

end Indexer
