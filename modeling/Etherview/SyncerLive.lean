import Etherview.IndexerInvariant
import Etherview.IndexerOutcome

/-! # The live poll

    `liveOnceOwned` of `internal/syncer/service.go` as a program over the repository
    and the block source.  It reads the authoritative head and follows it on one of
    four ways: the head is canonical already, a shallow gap is resolved through its
    ancestors, the head is committed as a segment of its own, or a conflict of that
    commit sends it to `ApplyHead`.

    `live_poll_tip_iff` says when the head is the tip afterwards.  It is not when a
    head below the tip falls into an uncovered gap and fits there: the segment commit
    accepts it and leaves everything above in place.

    Metrics, published results and wake-up signals are left out. -/

namespace Syncer

open Store Interaction Transact IntervalSet Indexer List Prog Tx Option

variable {B H : Type} [DecidableEq H] [ChainBundle B H] [ToString H]

/-! ## The poll -/

/-- The fields of the source that the poll reads. -/
structure Service where
  startBlock : Uint64
  canonicalizer : Canonicalizer

/-- A head behind a gap above a contiguous chain is applied where the gap is shallow. -/
def shouldResolveShallowLiveGap (coverage : CoreCoverage H) (tip candidate : BlockRef H)
    (maxDepth : Uint64) : Bool :=
  match coverage.contiguous, coverage.highest with
  | some contiguous, some highest =>
    if contiguous.number ≠ tip.number ∨ highest.number ≠ tip.number
        ∨ candidate.number ≤ tip.number ∨ tip.number = maxUint64
        ∨ candidate.number = tip.number + 1 then false
    else candidate.number - tip.number - 1 ≤ maxDepth
  | _, _ => false

omit [DecidableEq H] [ToString H] in
/-- A shallow gap is resolved for a candidate above the tip only. -/
theorem shallow_above {coverage : CoreCoverage H} {tip candidate : BlockRef H}
    {maxDepth : Uint64} (h : shouldResolveShallowLiveGap coverage tip candidate maxDepth = true) :
    tip.number < candidate.number := by
  unfold shouldResolveShallowLiveGap at h
  split at h
  · split_ifs at h with hno
    rw [not_or, not_or, not_or] at hno
    exact not_le.mp hno.2.2.1
  · cases h

namespace Service

variable (service : Service)

/-- The configured depth, or its default. -/
def maxReorgDepth : Uint64 := if service.canonicalizer.configuredReorgDepth = 0 then 128
  else service.canonicalizer.configuredReorgDepth

/-- The loop of `updateAvailableFinality` over the requested markers: are they all
    canonical? -/
def markersStored : List (BlockRef H) → IndexM B H Bool
  | [] => pure true
  | requested :: rest => do
      let canonical ← canonicalBlock requested.number "check finality coverage"
      if canonical.map BlockRef.hash = some requested.hash then markersStored rest
      else pure false

/-- Moves the markers to the heads of the source where their blocks are stored. -/
def updateAvailableFinality : IndexM B H Unit := do
  let (safe, finalized) ← sourceFinality "read safe/finalized heads"
  if safe = none ∧ finalized = none then pure ()
  else do
    let stored ← markersStored (safe.toList ++ finalized.toList)
    if stored then
      (Canonicalizer.updateFinality safe finalized).mapError (.wrap "update finality")
    else pure ()

/-- `ApplyHead`, then the finality update. -/
def applyThenFinality (bundle : B) : IndexM B H Unit := do
  let _ ← service.canonicalizer.applyHead bundle
  updateAvailableFinality

/-- The segment commit of the head, with `ApplyHead` as the answer to a conflict. -/
def commitHead (bundle : B) (head : Uint64) : IndexM B H Unit := do
  let outcome ← Prog.query (.call (.commitCanonicalSegment [bundle]))
    (fun answer => (.ok answer : Except StoreError (Except StoreError Unit))) .ofStore
  match outcome with
  | .ok _ => updateAvailableFinality
  | .error err =>
    if err.kind = .conflict then service.applyThenFinality bundle
    else .fail (.storeContext s!"commit authoritative live head {head.val}" err)

/-- The poll once the head and the canonical chain are read. -/
def followHead (bundle : B) (reference : BlockRef H) (tip canonical : Option (BlockRef H)) :
    IndexM B H Unit :=
  if canonical.map BlockRef.hash = some reference.hash then
    if tip.any (fun tip => reference.number < tip.number) then service.applyThenFinality bundle
    else updateAvailableFinality
  else do
    match ← readCoverage "read canonical coverage before live commit", tip with
    | some coverage, some tip =>
      if shouldResolveShallowLiveGap coverage tip reference service.maxReorgDepth then
        service.applyThenFinality bundle
      else service.commitHead bundle reference.number
    | _, _ => service.commitHead bundle reference.number

/-- `liveOnceOwned`: one poll of the authoritative head. -/
def liveOnceOwned : IndexM B H Unit := do
  let head ← sourceHead "read authoritative head"
  failIf (head < service.startBlock) (IndexError.plain
      (s!"configured start block {service.startBlock.val} is above current head {head.val}"))
  let bundle ← sourceBlock head s!"fetch authoritative head {head.val}"
  let reference ← (refFromBundle bundle).mapError
    (IndexError.storeContext s!"authoritative head bundle identity mismatch at {head.val}")
  failIf (reference.number ≠ head) (IndexError.plain
      (s!"authoritative head bundle height is {reference.number.val}, " ++ s!"expected {head.val}"))
  let tip ← canonicalTip "read canonical tip"
  let canonical ← canonicalBlock head "read authoritative canonical height"
  service.followHead bundle reference tip canonical

end Service

/-! ## The poll with a given head -/

/-- What the source answers when `bundle` is the authoritative head. -/
def SourceAnswers (reference : BlockRef H) (bundle : B) :
    (request : Request B H) → Answer request → Prop
  | .sourceHead, answer => answer = .ok reference.number
  | .sourceBlock _, answer => answer = .ok bundle
  | _, _ => True

/-- The repository, and a source whose head is `bundle`. -/
def pollServes (reference : BlockRef H) (bundle : B) (request : Request B H)
    (s : MemoryChain B H) (answer : Answer request) (t : MemoryChain B H) : Prop :=
  memoryServes request s answer t ∧ SourceAnswers reference bundle request answer

/-- The poll without other lanes. -/
def pollWorld (reference : BlockRef H) (bundle : B) :
    World (interface B H) (MemoryChain B H) := World.quiet (pollServes reference bundle)

/-- The head fits into an uncovered height: nothing is canonical there, and the blocks
    next to it, where they are canonical, are its parent and its child. -/
structure FitsGap (s : MemoryChain B H) (r : BlockRef H) : Prop where
  free : s.refAt r.number = none
  lower : ∀ n l, n ≠ maxUint64 → n + 1 = r.number → s.refAt n = some l →
    r.parentHash = l.hash
  upper : ∀ u, r.number ≠ maxUint64 → s.refAt (r.number + 1) = some u →
    u.parentHash = r.hash

/-- The head fits into an uncovered height below the tip. -/
def HeadInGap (s : MemoryChain B H) (r : BlockRef H) : Prop :=
  FitsGap s r ∧ ∃ tip, s.tip = some tip ∧ r.number < tip.number

section Poll

variable {r : BlockRef H} {bundle : B} {s t : MemoryChain B H}

theorem pollWorld_repo : RepoWorld (pollWorld r bundle : World (interface B H) _) where
  serves := And.left
  grows := fun h => by
    cases h
    exact Grows.refl _
  reads := fun _ _ _ => trivial
  calls := fun _ _ _ _ => trivial

/-! ### The segment commit of the head -/

omit [ToString H] in
theorem single_copy {items : List (BlockRef H × B)} (href : refFromBundle bundle = .ok r)
    (h : validateCanonicalSegment [bundle] = .ok items) : ∃ copy, items = [(r, copy)] := by
  obtain ⟨-, howned, -, hcopies⟩ := validateCanonicalSegment_ok h
  obtain ⟨⟨r', copy⟩, rest, hcopy, hrest, rfl⟩ := forall₂_cons_left_iff.mp hcopies
  cases hrest
  have hcopyRef := (howned (r', copy) mem_cons_self).1
  rw [refFromBundle_clone hcopy, href] at hcopyRef
  cases hcopyRef
  exact ⟨copy, rfl⟩

omit [ToString H] in
/-- **An accepted commit of a new head** makes it the tip exactly when it is not in a
    gap below the tip. -/
theorem commitHead_tip_iff {result : CoreCoverage H} (hs : WellFormed s)
    (href : refFromBundle bundle = .ok r) (hnew : s.refAt r.number ≠ some r)
    (hrun : (commitCanonicalSegment [bundle]).run s = (.ok result, t)) :
    t.tip = some r ↔ ¬ HeadInGap s r := by
  obtain ⟨items, start, hitems, heff⟩ := commitCanonicalSegment_effect hs hrun
  obtain ⟨copy, rfl⟩ := single_copy href hitems
  have hgap : FitsGap s r := by
    refine ⟨?_, fun n l hn hnext hl => ?_, fun u hmax hu => ?_⟩
    · by_contra hne
      obtain ⟨q, hq⟩ := ne_none_iff_exists'.mp hne
      rw [heff.agrees _ mem_cons_self q hq] at hq
      exact hnew hq
    · exact heff.lower r rfl n l hn hnext (kept_nil n) hl
    · exact heff.upper r rfl u hmax (kept_nil _) hu
  constructor
  · rintro htip ⟨-, tip, hold, hlt⟩
    have hkept : t.refAt tip.number ≠ none :=
      (heff.moved.refAt_ne_none _).mpr
        (.inl ⟨by rw [(hs.tip_some.mp hold).1]; simp, kept_nil _⟩)
    exact absurd ((heff.moved.after.tip_some.mp htip).2 _ hkept) (not_le.mpr hlt)
  · intro hno
    refine moved_tip heff.moved rfl fun n hn => ?_
    by_contra hlt
    cases htip : s.tip with
    | none => exact hn (hs.tip_none.mp htip n)
    | some tip =>
      have hle := (hs.tip_some.mp htip).2 n hn
      exact hno ⟨hgap, tip, htip, lt_of_lt_of_le (not_le.mp hlt) hle⟩

/-- An error that `errors.Is` does not take for a conflict. -/
def NoConflict (err : StoreError) : Prop := err.kind ≠ .conflict

section

omit [DecidableEq H] [ToString H]

omit [ChainBundle B H] in
theorem noConflict_plain (text : String) : NoConflict (.plain text) := by
  intro h
  cases h

theorem refFromBundle_noConflict (bundle : B) :
    Errs NoConflict (refFromBundle bundle : Except StoreError (BlockRef H)) := by
  refine errs_bind (errs_mapError (P := fun _ => True) (fun _ _ => trivial)
    fun text _ => noConflict_plain text) fun number _ => ?_
  refine errs_bind (errs_mapError (P := fun _ => True) (fun _ _ => trivial)
    fun text _ => noConflict_plain text) fun hash _ => errs_ok

/-- Reading a canonical reference reports no conflict. -/
theorem memoryCanonicalRef_noConflict [DecidableEq H] (s : MemoryChain B H) (number : Uint64) :
    Errs NoConflict (memoryCanonicalRef s number) := by
  unfold memoryCanonicalRef
  split
  · exact errs_ok
  · split
    · exact errs_error (noConflict_plain _)
    · exact errs_bind (refFromBundle_noConflict _) fun _ _ => errs_ok

theorem validateCanonicalSegment_noConflict [DecidableEq H] (bundle : B) :
    Errs NoConflict
      (validateCanonicalSegment [bundle] : Except StoreError (List (BlockRef H × B))) := by
  refine errs_bind (errs_failIf fun _ => noConflict_plain _) fun _ _ => ?_
  refine errs_bind (errs_mapError (P := NoConflict) ?_ fun _ h => h) fun copy _ => ?_
  · exact errs_mapError (P := fun _ => True) (fun _ _ => trivial) fun text _ =>
      noConflict_plain text
  refine errs_bind (errs_mapError (refFromBundle_noConflict copy) fun _ h => h)
    fun reference _ => ?_
  exact errs_bind errs_ok fun _ _ => errs_ok

omit [ChainBundle B H] in
theorem normalizeCoverageRanges_noConflict (ranges : List BlockRange) :
    Errs NoConflict (normalizeCoverageRanges ranges) :=
  errs_bind (errs_checkAll fun _ _ => errs_failIf fun _ => noConflict_plain _) fun _ _ => errs_ok

end

omit [ToString H] in
/-- Reading the coverage reports no conflict. -/
theorem memoryCoverageLocked_noConflict (s : MemoryChain B H) :
    Errs NoConflict (memoryCoverageLocked s) := by
  unfold memoryCoverageLocked
  split
  · refine errs_error fun h => ?_
    cases h
  · refine errs_bind ?_ fun _ _ => ?_
    · refine errs_bind (normalizeCoverageRanges_noConflict _) fun _ _ => ?_
      refine errs_bind (errs_failIf fun _ => noConflict_plain _) fun _ _ => ?_
      exact errs_failIf fun _ => noConflict_plain _
    · split
      · refine errs_bind (memoryCanonicalRef_noConflict _ _) fun highest _ => ?_
        split
        · exact errs_error (noConflict_plain _)
        · split
          · refine errs_bind (memoryCanonicalRef_noConflict _ _) fun contiguous _ => ?_
            split
            · exact errs_error (noConflict_plain _)
            · exact errs_ok
          · exact errs_ok
      · exact errs_ok

omit [ChainBundle B H] [ToString H] in
/-- The checkpoint of a segment reports no conflict. -/
theorem segmentCheckpoint_noConflict (s : MemoryChain B H) (coverage : CoreCoverage H) :
    Errs NoConflict (segmentCheckpoint s coverage false) := by
  unfold segmentCheckpoint
  split
  · exact errs_ok
  · refine errs_bind ?_ fun _ _ => errs_ok
    unfold checkMemoryCheckpoint
    split
    · refine errs_bind (errs_failIf fun _ h => ?_) fun _ _ => errs_failIf fun _ h => ?_
      · cases h
      · cases h
    · exact errs_ok

section

variable (hs : WellFormed s)
include hs

section

omit [ToString H]

/-- A block that fits into the gap has its parent below. -/
theorem checkSegmentLower_noConflict (hfits : FitsGap s r) :
    Errs NoConflict (checkSegmentLower s r) := by
  unfold checkSegmentLower
  split_ifs with hpos
  · refine errs_bind (memoryCanonicalRef_noConflict s _) fun lower hread => errs_failIf ?_
    rw [hs.canonicalRef_eq] at hread
    cases hread
    rintro ⟨l, hl, hne⟩
    have hval : (r.number - 1).val = r.number.val - 1 := val_sub_one (ne_of_gt hpos)
    have hlt : r.number - 1 < r.number := by
      rw [Fin.lt_def, hval]
      exact Nat.sub_lt hpos Nat.one_pos
    have hmax := ne_maxUint64_of_lt hlt
    refine absurd (hfits.lower (r.number - 1) l hmax (Fin.ext ?_) hl) hne
    rw [val_add_one hmax, hval]
    exact Nat.sub_add_cancel hpos
  · exact errs_ok

/-- A block that fits into the gap has its child above. -/
theorem checkSegmentUpper_noConflict (hfits : FitsGap s r) :
    Errs NoConflict (checkSegmentUpper s r) := by
  unfold checkSegmentUpper
  split_ifs with hmax
  · refine errs_bind (memoryCanonicalRef_noConflict s _) fun upper hread => errs_failIf ?_
    rw [hs.canonicalRef_eq] at hread
    cases hread
    rintro ⟨u, hu, hne⟩
    exact absurd (hfits.upper u hmax.ne hu) hne
  · exact errs_ok

/-- **A conflict is a real one**: the commit of a head that fits into its gap at or
    above the start fails with no conflict. -/
theorem commitHead_conflict {start : Uint64} {err : StoreError}
    (hstart : s.configuredStart = some start) (hle : start ≤ r.number)
    (href : refFromBundle bundle = .ok r)
    (hrun : (commitCanonicalSegment [bundle]).run s = (.error err, t)) (hfits : FitsGap s r) :
    NoConflict err := by
  rcases run_liftM_bind_error hrun with ⟨he, -⟩ | ⟨items, hitems, hrun⟩
  · exact validateCanonicalSegment_noConflict bundle err he
  obtain ⟨copy, rfl⟩ := single_copy href hitems
  rcases run_liftM_bind_error hrun with ⟨he, -⟩ | ⟨start', hstart', hrun⟩
  · rw [requireConfigured, hstart] at he
    cases he
  cases some.inj (hstart.symm.trans (requireConfigured_ok.mp hstart'))
  rcases run_liftM_bind_error hrun with ⟨he, -⟩ | ⟨ends, hends, hrun⟩
  · cases he
  cases hends
  -- the four checks that report conflicts all pass
  rcases run_liftM_bind_error hrun with ⟨he, -⟩ | ⟨_, -, hrun⟩
  · exact absurd hle (not_le.mpr (failIf_eq_error.mp he).1)
  rcases run_liftM_bind_error hrun with ⟨he, -⟩ | ⟨_, -, hrun⟩
  · refine errs_checkAll (fun q hq => ?_) err he
    rw [mem_singleton.mp hq]
    refine errs_bind (memoryCanonicalRef_noConflict s _) fun existing hread => errs_failIf ?_
    rw [hs.canonicalRef_eq, hfits.free] at hread
    cases hread
    rintro ⟨e, hmem, -⟩
    cases hmem
  rcases run_liftM_bind_error hrun with ⟨he, -⟩ | ⟨_, -, hrun⟩
  · exact checkSegmentLower_noConflict hs hfits err he
  rcases run_liftM_bind_error hrun with ⟨he, -⟩ | ⟨_, -, hrun⟩
  · exact checkSegmentUpper_noConflict hs hfits err he
  rcases run_liftM_bind_error hrun with ⟨he, -⟩ | ⟨ranges, -, hrun⟩
  · exact normalizeCoverageRanges_noConflict _ err he
  rcases run_liftM_bind_error hrun with ⟨he, -⟩ | ⟨coverage, -, hrun⟩
  · exact memoryCoverageLocked_noConflict _ err he
  rcases run_liftM_bind_error hrun with ⟨he, -⟩ | ⟨checkpoint, -, hrun⟩
  · exact segmentCheckpoint_noConflict s coverage err he
  cases checkpoint with
  | none => cases hrun
  | some checkpoint => cases hrun

end

/-! ### The ways of the poll -/

/-- The finality update leaves the tip. -/
theorem updateAvailableFinality_sat :
    (Service.updateAvailableFinality : IndexM B H Unit).Sat (pollWorld r bundle)
      (fun _ t => t.tip = s.tip) s := by
  -- looking for the blocks of the markers changes nothing
  have hmarkers : ∀ markers : List (BlockRef H),
      (Service.markersStored markers : IndexM B H Bool).Sat (pollWorld r bundle)
        (Ends (pollWorld r bundle) s fun _ _ => True) s := by
    intro markers
    induction markers with
    | nil => exact ends_pure trivial
    | cons requested rest ih =>
      refine ends_bind (canonicalBlock_ends pollWorld_repo hs _ _) fun canonical t ht _ => ?_
      cases ht
      split_ifs
      · exact ih
      · exact ends_pure trivial
  have hsource : (sourceFinality "read safe/finalized heads" : IndexM B H _).Sat
      (pollWorld r bundle) (Ends (pollWorld r bundle) s fun _ _ => True) s :=
    read_ends pollWorld_repo hs (fun _ h => by cases h)
      fun _ _ _ _ hserve => ⟨hserve, fun _ _ => trivial⟩
  refine sat_then hsource ?_ fun _ _ ht => by cases ht; rfl
  rintro ⟨safe, finalized⟩ t ht -
  cases ht
  show (if _ then _ else _ : IndexM B H Unit).Sat _ _ s
  split_ifs
  · rfl
  · refine sat_then (hmarkers _) (fun stored t ht _ => ?_) fun _ _ ht => by cases ht; rfl
    cases ht
    split_ifs
    · refine sat_mapError.mpr (updateFinality_sat pollWorld_repo hs ?_ ?_)
      · intro err u hu _
        cases hu
        rfl
      · intro markers u answer v hu _ _ _ hrun
        cases hu
        cases answer with
        | error err =>
          have hcall : (Call.updateFinality markers).exec.run s = (.error err, v) := hrun
          rw [Call.atomic hs.unconfigured hcall]
        | ok value =>
          -- only the markers are written
          obtain ⟨-, -, -, -, rfl⟩ := updateFinality_run.mp hrun
          rfl
    · rfl

end

section

variable (service : Service) (hs : WellFormed s)
include hs

/-- `ApplyHead` makes the head the tip. -/
theorem applyThenFinality_sat (href : refFromBundle bundle = .ok r) :
    (service.applyThenFinality bundle : IndexM B H Unit).Sat (pollWorld r bundle)
      (fun out t => out = .ok () → t.tip = some r) s := by
  refine sat_bind.mpr ?_
  have happly : (service.canonicalizer.apply bundle true).Sat (pollWorld r bundle)
      (ApplyEnds s bundle true) s :=
    (service.canonicalizer.apply_outcome hs bundle true).restrict fun _ _ _ _ h => h.1
  refine happly.mono ?_
  rintro (err | result) t ht
  · intro h
    cases h
  · obtain ⟨hwf, htip⟩ := ht
    obtain ⟨q, hq, htip⟩ := htip rfl
    cases href.symm.trans hq
    refine (updateAvailableFinality_sat hwf).mono fun out u hu _ => ?_
    rw [hu, htip]

/-- A committed head becomes the tip unless it lies in a gap. -/
theorem commitHead_sat {start : Uint64}
    (hstart : s.configuredStart = some start) (hle : start ≤ r.number)
    (href : refFromBundle bundle = .ok r) (hnew : s.refAt r.number ≠ some r) (head : Uint64) :
    (service.commitHead bundle head : IndexM B H Unit).Sat (pollWorld r bundle)
      (fun out t => out = .ok () → (t.tip = some r ↔ ¬ HeadInGap s r)) s := by
  refine sat_bind.mpr (sat_query.mpr fun u hu => ⟨trivial, fun answer t hserve => ?_⟩)
  cases hu
  have hrun : (Call.commitCanonicalSegment [bundle]).exec.run s = (answer, t) := hserve.1
  cases answer with
  | ok value =>
    obtain ⟨result, hsegment, rfl⟩ := run_map_ok hrun
    obtain ⟨items, start', -, heff⟩ := commitCanonicalSegment_effect hs hsegment
    refine (updateAvailableFinality_sat heff.moved.after).mono fun out v hv _ => ?_
    rw [hv]
    exact commitHead_tip_iff hs href hnew hsegment
  | error err =>
    have hsame := Call.atomic hs.unconfigured hrun
    subst hsame
    have hsegment := run_bind_pure_error hrun
    show (if _ then _ else _ : IndexM B H Unit).Sat _ _ _
    split_ifs with hkind
    · refine (applyThenFinality_sat service hs href).mono fun out v hv hout => ?_
      refine ⟨fun _ hgap => ?_, fun _ => hv hout⟩
      exact commitHead_conflict hs hstart hle href hsegment hgap.1 hkind
    · intro h
      cases h

/-- A followed head becomes the tip unless it lies in a gap. -/
theorem followHead_sat {start : Uint64}
    (hstart : s.configuredStart = some start) (hle : start ≤ r.number)
    (href : refFromBundle bundle = .ok r) :
    (service.followHead bundle r s.tip (s.refAt r.number) : IndexM B H Unit).Sat
      (pollWorld r bundle) (fun out t => out = .ok () →
        (t.tip = some r ↔ ¬ HeadInGap s r)) s := by
  have happly : ¬ HeadInGap s r → (service.applyThenFinality bundle : IndexM B H Unit).Sat
      (pollWorld r bundle) (fun out t => out = .ok () →
        (t.tip = some r ↔ ¬ HeadInGap s r)) s := by
    intro hno
    refine (applyThenFinality_sat service hs href).mono fun out t ht hout => ?_
    exact ⟨fun _ => hno, fun _ => ht hout⟩
  unfold Service.followHead
  split_ifs with hknown habove
  · -- ?_ => the head is canonical below the tip, so it does not lie in a gap
    refine happly fun hgap => ?_
    rw [hgap.1.free] at hknown
    cases hknown
  · -- the head is the canonical tip
    obtain ⟨q, hq, hhash⟩ := map_eq_some_iff.mp hknown
    have hcanonical : s.refAt r.number = some r := by
      rw [hq, refAt_eq_of_hash hs hq href hhash]
    refine (updateAvailableFinality_sat hs).mono fun out t ht _ => ?_
    rw [ht]
    refine ⟨fun _ hgap => ?_, fun _ => hs.tip_some.mpr ⟨hcanonical, fun n hn => ?_⟩⟩
    · rw [hgap.1.free] at hcanonical
      cases hcanonical
    · cases htip : s.tip with
      | none => exact absurd (hs.tip_none.mp htip n) hn
      | some tip =>
        rw [htip] at habove
        have hle' : tip.number ≤ r.number := by simpa using habove
        exact le_trans ((hs.tip_some.mp htip).2 n hn) hle'
  · -- the head is new
    have hnew : s.refAt r.number ≠ some r := by
      intro h
      exact hknown (by rw [h]; rfl)
    have hcommit := commitHead_sat service hs hstart hle href hnew r.number
    refine sat_then (readCoverage_ends pollWorld_repo hs _) (fun coverage t ht _ => ?_) ?_
    · cases ht
      cases coverage with
      | none => exact hcommit
      | some coverage =>
        cases htip : s.tip with
        | none => exact hcommit
        | some tip =>
          show (if _ then _ else _ : IndexM B H Unit).Sat _ _ s
          split_ifs with hshallow
          · -- a head above the tip does not lie in a gap
            refine happly ?_
            rintro ⟨-, tip', htip', hlt⟩
            cases htip.symm.trans htip'
            exact absurd hlt (shallow_above hshallow).not_gt
          · exact hcommit
    · intro err t _ h
      cases h

end

/-- A poll that succeeds makes its head the tip unless it lies in a gap. -/
theorem liveOnceOwned_sat (service : Service) {start : Uint64} (hs : Anchored start s)
    (hstart : service.startBlock = start) (href : refFromBundle bundle = .ok r) :
    (service.liveOnceOwned : IndexM B H Unit).Sat (pollWorld r bundle)
      (fun out t => out = .ok () → (t.tip = some r ↔ ¬ HeadInGap s r)) s := by
  have hwf := hs.wellFormed
  have herr : ∀ (err : IndexError) (t : MemoryChain B H),
      (.error err : Except IndexError Unit) = .ok () → (t.tip = some r ↔ ¬ HeadInGap s r) := by
    intro err t h
    cases h
  -- the two answers of the source
  refine sat_bind.mpr (sat_query.mpr fun u hu => ⟨trivial, fun answer t hserve => ?_⟩)
  cases hu
  obtain ⟨hserve, rfl⟩ := hserve
  cases (show t = s from hserve)
  refine sat_check (fun _ hle => ?_) fun err => herr err s
  rw [failIf_eq_ok, hstart, not_lt] at hle
  refine sat_bind.mpr (sat_query.mpr fun u hu => ⟨trivial, fun answer t hserve => ?_⟩)
  cases hu
  obtain ⟨hserve, rfl⟩ := hserve
  cases (show t = s from hserve)
  refine sat_check (fun reference hreference => ?_) fun err => herr err s
  rw [mapError_eq_ok, href] at hreference
  cases hreference
  refine sat_check (fun _ _ => ?_) fun err => herr err s
  refine sat_then (canonicalTip_ends pollWorld_repo hwf _) (fun tip t ht htip => ?_)
    fun err t _ => herr err t
  cases ht
  subst htip
  refine sat_then (canonicalBlock_ends pollWorld_repo hwf _ _)
    (fun canonical t ht hcanonical => ?_) fun err t _ => herr err t
  cases ht
  subst hcanonical
  exact followHead_sat service hwf hs.invariant.configured hle href

/-- **The poll follows the head** exactly when the head is not in a gap below the tip
    into which it fits: then, and only then, the head is the tip and nothing is
    canonical above it. -/
theorem live_poll_tip_iff (service : Service) {start : Uint64} (hs : Anchored start s)
    (hstart : service.startBlock = start) (href : refFromBundle bundle = .ok r)
    (hrun : (service.liveOnceOwned : IndexM B H Unit).Runs (pollServes r bundle) s (.ok ()) t) :
    (t.tip = some r ∧ ∀ n, r.number < n → t.refAt n = none) ↔ ¬ HeadInGap s r := by
  have htip : t.tip = some r ↔ ¬ HeadInGap s r :=
    Sat.runs (W := pollWorld r bundle) (liveOnceOwned_sat service hs hstart href) hrun rfl
  have ht : WellFormed t := wellFormed_runs hs.wellFormed (hrun.mono fun _ _ _ _ h => h.1)
  rw [← htip]
  refine ⟨And.left, fun h => ⟨h, fun n hn => ?_⟩⟩
  by_contra hne
  exact absurd ((ht.tip_some.mp h).2 n hne) (not_le.mpr hn)

end Poll

/-! ## Two polls -/

section Polls

/-- The repository as a function, with `bundle` as the head of its source. -/
def pollServe (bundle : TermBundle) : (request : Request TermBundle TermHash) →
    MemoryChain TermBundle TermHash → Answer request × MemoryChain TermBundle TermHash
  | .sourceHead, s => (.ok bundle.ref.number, s)
  | .sourceBlock _, s => (.ok bundle, s)
  | request, s => memoryServe request s

theorem pollServes_serve (bundle : TermBundle) (request : Request TermBundle TermHash)
    (s : MemoryChain TermBundle TermHash) :
    pollServes bundle.ref bundle request s (pollServe bundle request s).1
      (pollServe bundle request s).2 := by
  cases request with
  | sourceHead | sourceBlock _ => exact ⟨rfl, rfl⟩
  | _ => exact ⟨memoryServes_serve _ s, trivial⟩

/-- A service that starts at height 0. -/
def plainService : Service where
  startBlock := 0
  canonicalizer := plainCanonicalizer

/-- A poll of the chain with height 0 and the range from 5 to 6. -/
def pollRun (bundle : TermBundle) :
    IndexM TermBundle TermHash Unit × MemoryChain TermBundle TermHash :=
  plainService.liveOnceOwned.advance (pollServe bundle) (fun _ _ => true) 40 raceStart

/-- A run of the executable poll is a run of the poll. -/
theorem pollRun_runs {bundle : TermBundle}
    (h : (pollRun bundle).1.result.map Except.toBool = some true) :
    plainService.liveOnceOwned.Runs (pollServes bundle.ref bundle) raceStart (.ok ())
      (pollRun bundle).2 := by
  obtain ⟨out, hout, hbool⟩ := map_eq_some_iff.mp h
  have hrun := runs_advance (pollServes_serve bundle) 40 hout
  cases out with
  | ok value => exact hrun
  | error err => cases hbool

/-- A sibling of the tip replaces it. -/
theorem live_poll_tip_iff_fork :
    (pollRun fork6).2.tip = some fork6.ref ∧
      ∀ n, fork6.ref.number < n → (pollRun fork6).2.refAt n = none := by
  refine (live_poll_tip_iff plainService raceStart_anchored rfl rfl
    (pollRun_runs (by decide +kernel))).mpr ?_
  rintro ⟨-, tip, htip, hlt⟩
  have hold : raceStart.tip = some island6.ref := by decide +kernel
  cases hold.symm.trans htip
  exact absurd hlt (lt_irrefl _)

/-- A head at height 3, below the range from 5 to 6. -/
def gapHead : TermBundle := ⟨3, .genesis, 0⟩

/-- **A head in the gap** is committed without an error and the old tip stays. -/
theorem live_poll_leaves_island :
    Anchored 0 raceStart ∧ plainService.startBlock ≤ gapHead.ref.number
      ∧ ∃ t, plainService.liveOnceOwned.Runs (pollServes gapHead.ref gapHead) raceStart
        (.ok ()) t
        ∧ t.refAt 3 = some gapHead.ref ∧ t.tip = some island6.ref := by
  refine ⟨raceStart_anchored, by decide, (pollRun gapHead).2,
    pollRun_runs (by decide +kernel), ?_⟩
  exact ⟨by decide +kernel, by decide +kernel⟩

end Polls

end Syncer
