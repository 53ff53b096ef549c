import Etherview.StoreInvariant

/-! # The repository as a correctness boundary

    When does a successful call, with any argument whatsoever, keep the canonical
    invariant?  `Call.Keeps` is the exact condition, in terms of the argument and
    the state before the call: a segment commit always does, a reorg that
    detaches something always does, and so does a replacement without an
    ancestor.  The other forms accept arguments that break the invariant. -/

namespace Store

open IntervalSet Transact MapUpdate List Option Fin Prod

variable {B H : Type} [DecidableEq H] [ChainBundle B H] {start : Uint64} {s t : MemoryChain B H}

/-! ## Replacements -/

/-- When a replacement keeps the invariant: only the form with an ancestor can
    break it, by attaching below the configured start, by naming an ancestor that
    is not the block below the attached branch, by leaving a block on top of the
    attached branch that is not its child, or by detaching the configured start. -/
def ReplacementKeeps (start : Uint64) (s : MemoryChain B H)
    (replacement : SparseCanonicalReplacement B H) : Prop :=
  ∀ a ∈ replacement.ancestor,
    (∀ bundle ∈ replacement.attached.val.getLast?, start ≤ a.number + 1
        ∧ (Kept replacement.detached.val a.number →
            ∀ r, s.refAt a.number = some r → r.hash = a.hash)
        ∧ ∀ last, refFromBundle bundle = .ok last → last.number ≠ maxUint64 →
            Kept replacement.detached.val (last.number + 1) →
            ∀ upper, s.refAt (last.number + 1) = some upper → upper.parentHash = last.hash)
    ∧ (s.refAt start ≠ none → Kept replacement.detached.val start
        ∨ (replacement.attached.val ≠ [] ∧ a.number + 1 = start))

section Replacement

variable {replacement : SparseCanonicalReplacement B H} {items : List (BlockRef H × B)}

section

variable (heff : ReplacementEffect s t start replacement items) (hinv : CanonicalInvariant start s)
include heff hinv

/-- The old range starts above the configured start. -/
private theorem start_lt_range : start < replacement.range.start := by
  have hproper := heff.accepted.proper
  have hle : start ≤ replacement.range.start :=
    hinv.start_le ⟨replacement.range, mem_of_getLast? heff.highest, le_rfl, hproper⟩
  exact lt_of_le_of_ne hle heff.disconnected.symm

private theorem free_below_range {n : Uint64} (hmax : n ≠ maxUint64)
    (hn : n + 1 = replacement.range.start) : s.refAt n = none := by
  by_contra hne
  have hlt := start_lt_range heff hinv
  rw [← hn, lt_def, val_add_one hmax] at hlt
  have hcov : Covers s.coverage n := (hinv.covered n).mpr ⟨Nat.lt_succ_iff.mp hlt, hne⟩
  -- the range that covers `n` would touch the highest one
  obtain ⟨q, hq, hlo, hhi⟩ := hcov
  obtain ⟨front, hfront⟩ := getLast?_eq_some_iff.mp heff.highest
  have hnorm := hinv.wellFormed.normalized
  rw [hfront] at hq hnorm
  have hv := val_add_one hmax
  rcases mem_append.mp hq with hq | hq
  · have hap : Apart q replacement.range :=
      (pairwise_append.mp hnorm.apart).2.2 q hq _ (mem_singleton.mpr rfl)
    have hstop : q.stop = n := by
      refine le_antisymm ?_ hhi
      have := hap.1
      rw [← hn, lt_def, hv] at this
      exact Nat.lt_succ_iff.mp this
    refine hap.2 ?_
    rw [hstop, ← adjacent_iff_covBy, ← hn]
    simp [adjacent, hmax]
  · rw [mem_singleton.mp hq, ← hn, le_def, hv] at hlo
    omega

/-- A replacement without an ancestor fits in place. -/
private theorem ordinary_keeps (hnone : replacement.ancestor = none) :
    CanonicalInvariant start t := by
  have hlt := start_lt_range heff hinv
  have hstarts : ∀ first ∈ (items.map fst).head?, first.number = replacement.range.start := by
    intro first hfirst
    have := heff.accepted.starts first hfirst
    rw [hnone] at this
    exact this
  refine (heff.invariant_iff hinv).mpr ⟨start_le_items heff.moved.linked ?_, ?_, ?_, ?_⟩
  · intro first hfirst
    rw [hstarts first hfirst]
    exact hlt.le
  · intro first hfirst n r hmax hn _ hr
    rw [hstarts first hfirst] at hn
    rw [free_below_range heff hinv hmax hn] at hr
    cases hr
  · intro last hlast r hmax hkeep hr
    have hmem := mem_of_getLast? hlast
    obtain ⟨first, rest, hrest⟩ := exists_cons_of_ne_nil (ne_nil_of_mem hmem)
    have hfirst := hstarts first (by rw [hrest]; rfl)
    have hlinked := heff.moved.linked
    rw [hrest] at hlinked hmem
    have hle := hlinked.le_of_mem hmem
    rw [hfirst, le_def] at hle
    have hv := val_add_one hmax
    -- a height of the old range is detached, a height above it is above the tip
    by_cases hin : last.number + 1 ≤ replacement.range.stop
    · obtain ⟨d, hd, hdn⟩ := heff.accepted.detaches_range heff.nonempty (last.number + 1)
        ⟨by rw [le_def, hv]; omega, hin⟩
      exact absurd hdn (hkeep d hd)
    · obtain ⟨tip, htip, hnum⟩ := map_eq_some_iff.mp heff.tip
      have := (hinv.wellFormed.tip_some.mp htip).2 _ (by rw [hr]; exact some_ne_none _)
      rw [hnum] at this
      exact absurd this hin
  · intro hc
    refine (heff.covers start).mpr (.inl ⟨hc, ?_⟩)
    intro d hd hdn
    have := (heff.accepted.detaches_only hnone d hd).1
    rw [hdn] at this
    exact absurd this (not_le.mpr hlt)

end

/-- **A replacement keeps the invariant** exactly under `ReplacementKeeps`. -/
theorem replaceHighestCanonicalSegment_invariant_iff {result : CoreCoverage H}
    (hinv : CanonicalInvariant start s)
    (h : (replaceHighestCanonicalSegment replacement).run s = (.ok result, t)) :
    CanonicalInvariant start t ↔ ReplacementKeeps start s replacement := by
  obtain ⟨items, heff⟩ :=
    replaceHighestCanonicalSegment_effect hinv.wellFormed hinv.configured h
  cases hanc : replacement.ancestor with
  | none =>
    refine ⟨fun _ a ha => ?_, fun _ => ordinary_keeps heff hinv hanc⟩
    rw [hanc] at ha
    cases ha
  | some a =>
    have hstarts : ∀ first ∈ (items.map Prod.fst).head?, Follows a first := by
      intro first hfirst
      have := heff.accepted.starts first hfirst
      rw [hanc] at this
      exact this
    have hcanon : s.refAt start ≠ none ↔ Covers s.coverage start :=
      ⟨fun hn => (hinv.covered start).mpr ⟨le_rfl, hn⟩,
        fun hc => ((hinv.covered _).mp hc).2⟩
    have hlast := @mem_getLast_refs _ _ _ items _ heff.accepted.copies heff.moved.owned
    simp only [heff.invariant_iff hinv, ReplacementKeeps, hanc, Option.mem_some_iff, forall_eq',
      hcanon, heff.covers start]
    have hcopies := heff.accepted.copies
    cases items with
    | nil =>
      rw [forall₂_nil_right_iff.mp hcopies]
      simp +contextual [LowerBoundary, UpperBoundary]
    | cons f rest =>
      -- the branch starts on top of the ancestor and ends with the last bundle
      obtain ⟨hamax, hfnum, hfpar⟩ := hstarts f.1 rfl
      obtain ⟨b, bundles, -, -, hbundles⟩ := forall₂_cons_right_iff.mp hcopies
      obtain ⟨bundle, hbundle⟩ : ∃ bundle, replacement.attached.val.getLast?
          = some bundle := by
        rw [hbundles]
        exact ⟨_, getLast?_eq_some_getLast (cons_ne_nil _ _)⟩
      simp only [hbundle, Option.mem_some_iff, forall_eq', exists_eq_left'] at hlast ⊢
      have habove : (∀ p ∈ f :: rest, start ≤ p.1.number) ↔ start ≤ a.number + 1 := by
        rw [← hfnum]
        refine ⟨fun h => h f mem_cons_self, fun h => start_le_items heff.moved.linked ?_⟩
        rintro first ⟨⟩
        exact h
      have hlower : LowerBoundary s replacement.detached.val ((f :: rest).map Prod.fst) ↔
          (Kept replacement.detached.val a.number →
            ∀ r, s.refAt a.number = some r → r.hash = a.hash) := by
        constructor
        · intro hlower hkeep r hr
          rw [← hlower f.1 rfl a.number r hamax hfnum.symm hkeep hr, hfpar]
        · rintro h first ⟨⟩ n r hmax hn hkeep hr
          have hna : n = a.number := add_one_inj (hn.trans hfnum)
          rw [hna] at hkeep hr
          rw [hfpar, h hkeep r hr]
      have hupper : UpperBoundary s replacement.detached.val ((f :: rest).map Prod.fst) ↔
          ∀ last, refFromBundle bundle = .ok last → last.number ≠ maxUint64 →
            Kept replacement.detached.val (last.number + 1) →
            ∀ upper, s.refAt (last.number + 1) = some upper → upper.parentHash = last.hash :=
        ⟨fun h last href hmax hkeep upper => h last (hlast.mpr href) upper hmax hkeep,
          fun h last hl upper hmax hkeep => h last (hlast.mp hl) hmax hkeep upper⟩
      have hreach : start ≤ a.number + 1 → ((∃ p ∈ f :: rest, p.1.number = start) ↔
          replacement.attached.val ≠ [] ∧ a.number + 1 = start) := by
        rw [← hfnum, hbundles]
        refine fun hle => ⟨?_, fun h => ⟨f, mem_cons_self, h.2⟩⟩
        rintro ⟨p, hp, rfl⟩
        exact ⟨cons_ne_nil _ _,
          le_antisymm (heff.moved.linked.le_of_mem (mem_map_of_mem hp)) hle⟩
      rw [habove, hlower, hupper]
      constructor
      · rintro ⟨hstart, hlow, hup, hkeeps⟩
        exact ⟨⟨hstart, hlow, hup⟩, fun hc => (hkeeps hc).imp And.right (hreach hstart).mp⟩
      · rintro ⟨⟨hstart, hlow, hup⟩, hkeeps⟩
        exact ⟨hstart, hlow, hup, fun hc => (hkeeps hc).imp (⟨hc, ·⟩) (hreach hstart).mpr⟩

end Replacement

/-! ## Single-block commits -/

/-- When a single-block commit keeps the invariant: a core checkpoint has to be
    the end of the contiguous range, and a height that was free has to lie below
    the configured start, under a child of the block if under any. -/
def CommitKeeps (start : Uint64) (s : MemoryChain B H) (bundle : B) (checkpoint : Checkpoint H) :
    Prop :=
  ∀ reference, refFromBundle bundle = .ok reference → (checkpoint.stage = coreCheckpoint →
      contiguousEnd start s.coverage = some reference.number)
    ∧ (s.refAt reference.number = none → reference.number < start
        ∧ (reference.number ≠ maxUint64 →
            ∀ upper, s.refAt (reference.number + 1) = some upper →
            upper.parentHash = reference.hash))

section Commit

variable {bundle : B} {checkpoint : Checkpoint H}

omit [DecidableEq H] [ChainBundle B H] in
/-- A written checkpoint is the core one or leaves the core one alone. -/
private theorem lookup_core_set (checkpoint : Checkpoint H) (s : MemoryChain B H) :
    (setMemoryCheckpoint checkpoint s).checkpoints.lookup coreCheckpoint
      = if checkpoint.stage = coreCheckpoint then some checkpoint
        else s.checkpoints.lookup coreCheckpoint := by
  show (s.checkpoints.insert checkpoint.stage checkpoint).lookup coreCheckpoint = _
  by_cases hstage : checkpoint.stage = coreCheckpoint
  · rw [if_pos hstage, hstage, Finmap.lookup_insert]
  · rw [if_neg hstage, Finmap.lookup_insert_of_ne _ (Ne.symm hstage)]

omit [DecidableEq H] [ChainBundle B H] in
/-- A checkpoint that validates against a block is the block's core checkpoint. -/
private theorem eq_newCoreCheckpoint {reference : BlockRef H}
    (hstage : checkpoint.stage = coreCheckpoint)
    (hthrough : checkpoint.contiguousThrough = reference.number)
    (hhash : checkpoint.blockHash = reference.hash) : newCoreCheckpoint reference = checkpoint := by
  obtain ⟨stage, through, hash⟩ := checkpoint
  simp only at hstage hthrough hhash
  rw [hstage, hthrough, hhash]
  rfl

/-- The checkpoint part of the invariant after the core checkpoint was written. -/
private theorem checkpointAtEnd_of_core (ht : WellFormed t) {reference : BlockRef H}
    (hlook : t.checkpoints.lookup coreCheckpoint = some checkpoint)
    (hthrough : checkpoint.contiguousThrough = reference.number)
    (h : CheckpointAtEnd start t) : contiguousEnd start t.coverage = some reference.number := by
  unfold CheckpointAtEnd at h
  rw [hlook] at h
  obtain ⟨r, hr, hnew⟩ := map_eq_some_iff.mp h.symm
  obtain ⟨n, hn, hrn⟩ := bind_eq_some_iff.mp hr
  have hnum : r.number = reference.number := by
    rw [← hthrough, ← hnew]
    rfl
  rw [hn, ← (ht.refAt_some hrn).1, hnum]

variable {reference : BlockRef H} {copy : B}

/-- The condition at the reference of the bundle. -/
private theorem commitKeeps_iff (hbundle : refFromBundle bundle = .ok reference) :
    CommitKeeps start s bundle checkpoint ↔
      (checkpoint.stage = coreCheckpoint → contiguousEnd start s.coverage = some reference.number)
      ∧ (s.refAt reference.number = none → reference.number < start
        ∧ (reference.number ≠ maxUint64 →
            ∀ upper, s.refAt (reference.number + 1) = some upper →
            upper.parentHash = reference.hash)) := by
  constructor
  · intro hk
    exact hk reference hbundle
  · intro hk r hr
    cases hbundle.symm.trans hr
    exact hk

/-- A height that is canonical already: only the checkpoint moves. -/
private theorem recommit_invariant_iff (hinv : CanonicalInvariant start s)
    (ht : WellFormed (setMemoryCheckpoint checkpoint (putBlock reference copy s)))
    (hhere : s.refAt reference.number = some reference)
    (hthrough : checkpoint.contiguousThrough = reference.number)
    (hhash : checkpoint.blockHash = reference.hash) :
    CanonicalInvariant start (setMemoryCheckpoint checkpoint (putBlock reference copy s)) ↔
      (checkpoint.stage = coreCheckpoint →
        contiguousEnd start s.coverage = some reference.number) := by
  have hrefAt : (setMemoryCheckpoint checkpoint (putBlock reference copy s)).refAt = s.refAt :=
    hinv.wellFormed.refAt_congr ht rfl
  constructor
  · intro hinv' hstage
    refine checkpointAtEnd_of_core ht ?_ hthrough hinv'.checkpoint
    rw [lookup_core_set, if_pos hstage]
  · intro hcore
    refine ⟨ht, hinv.configured, ?_, ?_, ?_⟩
    · intro n
      rw [hrefAt]
      exact hinv.covered n
    · unfold Links
      rw [hrefAt]
      exact hinv.links
    · unfold CheckpointAtEnd
      rw [hrefAt, lookup_core_set]
      by_cases hstage : checkpoint.stage = coreCheckpoint
      · rw [if_pos hstage]
        show _ = ((contiguousEnd start s.coverage).bind s.refAt).map newCoreCheckpoint
        rw [hcore hstage, bind_some, hhere, map_some, eq_newCoreCheckpoint hstage hthrough hhash]
      · rw [if_neg hstage]
        exact hinv.checkpoint

/-- A block on top of the tip fits what is below it. -/
private theorem lowerBoundary_of_extends (hs : WellFormed s) {tip : Option (BlockRef H)} {u : Unit}
    (hread : memoryTip s = .ok tip) (hext : checkExtendsTip tip reference = .ok u) :
    LowerBoundary s [] [reference] := by
  intro first hfirst n r hmax hn _ hr
  cases hfirst
  rw [hs.memoryTip_eq] at hread
  have htip := Except.ok.inj hread
  cases tip with
  | none =>
    rw [(hs.tip_none.mp htip) n] at hr
    cases hr
  | some tip =>
    rw [checkExtendsTip, failIf_eq_ok, not_or, not_not, not_not] at hext
    obtain ⟨hnum, hpar⟩ := hext
    have hntip : n = tip.number := add_one_inj (hn.trans hnum)
    rw [hntip, (hs.tip_some.mp htip).1] at hr
    cases hr
    exact hpar

/-- What a single block leaves on top of it. -/
private theorem upperBoundary_singleton : UpperBoundary s [] [reference] ↔
    (reference.number ≠ maxUint64 → ∀ upper, s.refAt (reference.number + 1) = some upper →
      upper.parentHash = reference.hash) := by
  constructor
  · intro hup hmax upper hr
    exact hup reference rfl upper hmax (kept_nil _) hr
  · intro hup last hlast r hmax _ hr
    cases hlast
    exact hup hmax r hr

/-- A block below the configured start changes nothing that coverage or the checkpoint
    see. -/
private theorem invariant_of_below (hinv : CanonicalInvariant start s) (ht : WellFormed t)
    (hlinks : Links t) (hcoverage : t.coverage = s.coverage)
    (hconfigured : t.configuredStart = s.configuredStart)
    (hcheckpoint : t.checkpoints.lookup coreCheckpoint = s.checkpoints.lookup coreCheckpoint)
    (hsame : ∀ n, start ≤ n → t.refAt n = s.refAt n) : CanonicalInvariant start t := by
  refine ⟨ht, hconfigured ▸ hinv.configured, ?_, hlinks, ?_⟩
  · intro n
    rw [hcoverage, hinv.covered n]
    refine and_congr_right fun hn => ?_
    rw [hsame n hn]
  · unfold CheckpointAtEnd
    rw [hcheckpoint, hinv.checkpoint, hcoverage]
    cases hend : contiguousEnd start s.coverage with
    | none => rfl
    | some n =>
      rw [bind_some, bind_some,
        hsame n (hinv.start_le (covers_contiguousEnd hinv.wellFormed.normalized hend))]

/-- A new block on top of the tip: coverage does not follow it. -/
private theorem extension_invariant_iff (hinv : CanonicalInvariant start s)
    (hmoved : Moved s (setMemoryCheckpoint checkpoint
      (putCanonical reference (putBlock reference copy s))) [] [(reference, copy)])
    (hlower : LowerBoundary s [] [reference]) (hnone : s.refAt reference.number = none)
    (hthrough : checkpoint.contiguousThrough = reference.number) :
    CanonicalInvariant start
        (setMemoryCheckpoint checkpoint (putCanonical reference (putBlock reference copy s))) ↔
      (checkpoint.stage = coreCheckpoint → contiguousEnd start s.coverage = some reference.number)
      ∧ reference.number < start ∧ UpperBoundary s [] [reference] := by
  have hlinks := links_move hmoved hinv.links
  constructor
  · intro hinv'
    refine ⟨fun hstage => ?_, ?_, (hlinks.mp hinv'.links).2⟩
    · refine checkpointAtEnd_of_core hmoved.after ?_ hthrough hinv'.checkpoint
      rw [lookup_core_set, if_pos hstage]
    · by_contra hle
      have hnow := hmoved.refAt_attached (mem_singleton.mpr rfl)
      have hcov : Covers s.coverage reference.number := (hinv'.covered reference.number).mpr
          ⟨not_lt.mp hle, by rw [hnow]; exact some_ne_none _⟩
      exact ((hinv.covered _).mp hcov).2 hnone
  · rintro ⟨hcore, hlt, hup⟩
    have hstage : checkpoint.stage ≠ coreCheckpoint := by
      intro hstage
      have hcov := covers_contiguousEnd hinv.wellFormed.normalized (hcore hstage)
      exact absurd hlt (not_lt.mpr (hinv.start_le hcov))
    refine invariant_of_below hinv hmoved.after (hlinks.mpr ⟨hlower, hup⟩) rfl rfl ?_ ?_
    · rw [lookup_core_set, if_neg hstage]
      rfl
    · intro n hn
      refine hmoved.refAt_kept ?_ (kept_nil _)
      intro p hp hpn
      rw [mem_singleton.mp hp] at hpn
      rw [← hpn] at hn
      exact absurd hlt (not_lt.mpr hn)

/-- **A single-block commit keeps the invariant** exactly under `CommitKeeps`. -/
theorem commitCanonical_invariant_iff {u : Unit} (hinv : CanonicalInvariant start s)
    (h : (commitCanonical bundle checkpoint).run s = (.ok u, t)) :
    CanonicalInvariant start t ↔ CommitKeeps start s bundle checkpoint := by
  have hs := hinv.wellFormed
  have ht := commitCanonical_wellFormed hs h
  obtain ⟨copy, reference, hcopy, href, hvalid, -, h⟩ := commitCanonical_run.mp h
  obtain ⟨-, hthrough, hhash⟩ := validateCheckpoint_ok hvalid
  have hbundle : refFromBundle bundle = .ok reference := by
    rw [← refFromBundle_clone hcopy]
    exact href
  have hown : Owned (reference, copy) := Owned.of_clone hcopy href
  rw [commitKeeps_iff hbundle]
  rcases h with ⟨hlook, rfl⟩ | ⟨hfree, ⟨tip, hread, hext⟩, rfl⟩
  · have hhere : s.refAt reference.number = some reference := hs.refAt_of_owned hown hlook
    rw [recommit_invariant_iff hinv ht hhere hthrough hhash, hhere]
    refine (and_iff_left fun hno => ?_).symm
    cases hno
  · have hmoved : Moved s (setMemoryCheckpoint checkpoint
        (putCanonical reference (putBlock reference copy s))) [] [(reference, copy)] := by
      refine ⟨hs, ht, ?_, List.IsChain.singleton _, rfl⟩
      intro p hp
      rw [mem_singleton.mp hp]
      exact hown
    have hnone : s.refAt reference.number = none := hs.refAt_eq_none.mpr hfree
    rw [extension_invariant_iff hinv hmoved (lowerBoundary_of_extends hs hread hext) hnone hthrough,
      upperBoundary_singleton]
    exact and_congr_right fun _ => ⟨fun h _ => h, fun h => h hnone⟩

end Commit

/-! ## All calls -/

/-- The exact condition under which a successful call keeps the invariant. -/
def Call.Keeps (start : Uint64) (s : MemoryChain B H) : Call B H → Prop
  | .commitCanonical bundle checkpoint => CommitKeeps start s bundle checkpoint
  | .applyReorg reorg =>
    reorg.detached.val ≠ [] ∨ (start ≤ reorg.ancestor.number + 1
      ∧ ∀ bundle ∈ reorg.attached.val.getLast?, ∀ last, refFromBundle bundle = .ok last →
        last.number ≠ maxUint64 → ∀ upper, s.refAt (last.number + 1) = some upper →
          upper.parentHash = last.hash)
  | .replaceHighestCanonicalSegment replacement => ReplacementKeeps start s replacement
  | _ => True

/-- A change that leaves the maps, the coverage and the checkpoints alone keeps
    the invariant. -/
theorem CanonicalInvariant.congr (hinv : CanonicalInvariant start s) (ht : WellFormed t)
    (hrefAt : t.refAt = s.refAt) (hconf : t.configuredStart = s.configuredStart)
    (hcov : t.coverage = s.coverage) (hck : t.checkpoints = s.checkpoints) :
    CanonicalInvariant start t := by
  refine ⟨ht, by rw [hconf]; exact hinv.configured, ?_, ?_, ?_⟩
  · intro n
    rw [hcov, hrefAt]
    exact hinv.covered n
  · unfold Links
    rw [hrefAt]
    exact hinv.links
  · unfold CheckpointAtEnd
    rw [hcov, hrefAt, hck]
    exact hinv.checkpoint

/-- Rewriting the facts of a canonical block changes no reference. -/
theorem refreshCanonical_refAt [ToString H] {bundle : B} {options : RefreshOptions} {u : Unit}
    (hs : WellFormed s) (h : (refreshCanonical bundle options).run s = (.ok u, t)) :
    t.refAt = s.refAt := by
  have ht := refreshCanonical_wellFormed hs h
  obtain ⟨copy, reference, -, -, -, -, -, rfl⟩ := refreshCanonical_run.mp h
  exact hs.refAt_congr ht rfl

/-- **The repository boundary.**  On a configured chain that satisfies the
    canonical invariant a successful call leaves the invariant true exactly when
    its argument meets `Call.Keeps`. -/
theorem call_keeps_invariant_iff [ToString H] {call : Call B H} {u : Unit}
    (hinv : CanonicalInvariant start s) (h : call.exec.run s = (.ok u, t)) :
    CanonicalInvariant start t ↔ call.Keeps start s := by
  cases call with
  | configureIndex configured =>
    refine ⟨fun _ => trivial, fun _ => ?_⟩
    rcases configureIndex_run h with ⟨-, rfl⟩ | ⟨hno, -⟩
    · exact hinv
    · rw [hinv.configured] at hno
      cases hno
  | commitCanonical bundle checkpoint => exact commitCanonical_invariant_iff hinv h
  | commitCanonicalSegment bundles =>
    refine ⟨fun _ => trivial, fun _ => ?_⟩
    obtain ⟨result, hrun, rfl⟩ := Tx.run_map_ok h
    exact commitCanonicalSegment_invariant hinv hrun
  | applyReorg reorg => exact applyReorg_invariant_iff hinv h
  | replaceHighestCanonicalSegment replacement =>
    obtain ⟨result, hrun, rfl⟩ := Tx.run_map_ok h
    exact replaceHighestCanonicalSegment_invariant_iff hinv hrun
  | refreshCanonical bundle options =>
    refine ⟨fun _ => trivial, fun _ => ?_⟩
    have ht := refreshCanonical_wellFormed hinv.wellFormed h
    have hrefAt := refreshCanonical_refAt hinv.wellFormed h
    obtain ⟨copy, reference, -, -, -, -, -, rfl⟩ := refreshCanonical_run.mp h
    exact hinv.congr ht hrefAt rfl rfl rfl
  | updateFinality finality =>
    refine ⟨fun _ => trivial, fun _ => ?_⟩
    obtain ⟨-, -, -, -, rfl⟩ := updateFinality_run.mp h
    exact hinv.congr ⟨hinv.wellFormed.stored, hinv.wellFormed.canonical,
      hinv.wellFormed.unconfigured, hinv.wellFormed.normalized⟩ rfl rfl rfl rfl
  | appendJournal entry =>
    refine ⟨fun _ => trivial, fun _ => ?_⟩
    obtain ⟨-, -, -, -, rfl⟩ := appendJournal_run.mp h
    exact hinv.congr ⟨hinv.wellFormed.stored, hinv.wellFormed.canonical,
      hinv.wellFormed.unconfigured, hinv.wellFormed.normalized⟩ rfl rfl rfl rfl

/-! ## A fresh index, and three arguments that break the invariant -/

/-- An empty chain configured to start at `start`. -/
def MemoryChain.configured (start : Uint64) : MemoryChain B H :=
  { MemoryChain.empty with configuredStart := some start }

theorem configured_refAt (start n : Uint64) :
    (MemoryChain.configured start : MemoryChain B H).refAt n = none := rfl

theorem configured_invariant (start : Uint64) :
    CanonicalInvariant start (MemoryChain.configured start : MemoryChain B H) where
  wellFormed :=
    { stored := wellFormed_empty.stored
      canonical := wellFormed_empty.canonical
      unconfigured := fun _ => rfl
      normalized := Normalized.nil }
  configured := rfl
  covered :=
    fun n => ⟨fun h => absurd h (covers_nil n), fun h => absurd (configured_refAt start n) h.2⟩
  links := fun n lower upper _ hlo _ => by
    cases hlo
  checkpoint := rfl

theorem next_segment_invariant [ToString H] (hinv : CanonicalInvariant start s) (bundles : List B) :
    CanonicalInvariant start ((Call.commitCanonicalSegment bundles).next s) := by
  unfold Call.next
  rcases hrun : (Call.commitCanonicalSegment bundles).exec.run s with ⟨err | u, t⟩
  · rw [Call.atomic hinv.wellFormed.unconfigured hrun]
    exact hinv
  · obtain ⟨result, hsegment, rfl⟩ := Tx.run_map_ok hrun
    exact commitCanonicalSegment_invariant hinv hsegment

section Examples

/-- A chain of term blocks on top of a parent hash. -/
def termChain (number : Uint64) (parent : TermHash) (body : Nat) : Nat → List TermBundle
  | 0 => []
  | count + 1 =>
    let block : TermBundle := ⟨number, parent, body⟩
    block :: termChain (number + 1) block.hash body count

/-- Heights 0, 1 and 2 committed on an index that starts at 0. -/
def threeBlocks : MemoryChain TermBundle TermHash :=
  (Call.commitCanonicalSegment (termChain 0 .genesis 0 3)).next (.configured 0)

/-- Heights 0 and 1 and a disconnected block at height 10. -/
def withIsland : MemoryChain TermBundle TermHash :=
  (Call.commitCanonicalSegment [⟨10, .genesis, 0⟩]).next
    ((Call.commitCanonicalSegment (termChain 0 .genesis 0 2)).next (.configured 0))

theorem threeBlocks_invariant : CanonicalInvariant 0 threeBlocks :=
  next_segment_invariant (configured_invariant 0) _

theorem withIsland_invariant : CanonicalInvariant 0 withIsland :=
  next_segment_invariant (next_segment_invariant (configured_invariant 0) _) _

/-- The block at a height of `termChain 0 .genesis 0`. -/
def block0 : TermBundle := ⟨0, .genesis, 0⟩

/-- The child of the first block. -/
def block1 : TermBundle := ⟨1, block0.hash, 0⟩

/-- Its child. -/
def block2 : TermBundle := ⟨2, block1.hash, 0⟩

/-- The child of that. -/
def block3 : TermBundle := ⟨3, block2.hash, 0⟩

/-- A sibling of `block1`. -/
def fork1 : TermBundle := ⟨1, block0.hash, 1⟩

/-- A child of the sibling. -/
def fork2 : TermBundle := ⟨2, fork1.hash, 1⟩

/-- An extension committed without a coverage update. -/
def uncoveredCommit : Call TermBundle TermHash :=
  .commitCanonical block3 (newCoreCheckpoint block3.ref)

/-- A reorg that detaches nothing and attaches below the tip. -/
def overlayReorg : Call TermBundle TermHash := .applyReorg
    { ancestor := block0.ref, detached := emptySlice, attached := ⟨[fork1], by decide⟩,
      checkpoint := newCoreCheckpoint fork1.ref, reason := "overlay" }

/-- A replacement of the island through an ancestor that is not canonical. -/
def strayReplacement : Call TermBundle TermHash := .replaceHighestCanonicalSegment
    { range := ⟨10, 10⟩, ancestor := some fork1.ref,
      detached := ⟨[TermBundle.ref ⟨10, .genesis, 0⟩], by decide⟩,
      attached := ⟨[fork2], by decide⟩, reason := "stray" }

/-- Three successful calls, each on a state with the invariant, after which it is
    false: coverage misses a canonical height, or neighbours are not linked. -/
theorem calls_break_invariant : (CanonicalInvariant 0 threeBlocks
      ∧ uncoveredCommit.exec.run threeBlocks = (.ok (), uncoveredCommit.next threeBlocks)
      ∧ ¬ CanonicalInvariant 0 (uncoveredCommit.next threeBlocks))
    ∧ (overlayReorg.exec.run threeBlocks = (.ok (), overlayReorg.next threeBlocks)
      ∧ ¬ CanonicalInvariant 0 (overlayReorg.next threeBlocks))
    ∧ (CanonicalInvariant 0 withIsland
      ∧ strayReplacement.exec.run withIsland = (.ok (), strayReplacement.next withIsland)
      ∧ ¬ CanonicalInvariant 0 (strayReplacement.next withIsland)) := by
  refine ⟨⟨threeBlocks_invariant, Call.run_of_isOk (by decide +kernel), ?_⟩,
    ⟨Call.run_of_isOk (by decide +kernel), ?_⟩,
    withIsland_invariant, Call.run_of_isOk (by decide +kernel), ?_⟩
  · intro h
    have hcov : ¬ Covers (uncoveredCommit.next threeBlocks).coverage 3 := by decide +kernel
    exact hcov ((h.covered 3).mpr (by decide +kernel))
  · intro h
    have := h.links 1 fork1.ref block2.ref (by decide +kernel) (by decide +kernel)
        (by decide +kernel)
    exact absurd this (by decide +kernel)
  · intro h
    have := h.links 1 block1.ref fork2.ref (by decide +kernel) (by decide +kernel)
        (by decide +kernel)
    exact absurd this (by decide +kernel)

/-- The boundary theorem at work on a segment commit. -/
theorem call_keeps_invariant_segment :
    CanonicalInvariant 0 ((Call.commitCanonicalSegment [block3]).next threeBlocks) :=
  (call_keeps_invariant_iff threeBlocks_invariant (Call.run_of_isOk (by decide +kernel) :
      (Call.commitCanonicalSegment [block3]).exec.run threeBlocks = _)).mpr trivial

end Examples

end Store
