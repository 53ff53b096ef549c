import Etherview.StoreCalls

/-! # The canonical invariant

    What a configured chain is for: coverage is the set of canonical heights from
    the configured start on, neighbouring canonical blocks are parent-linked, and
    the core checkpoint is the end of the range that starts at the configured
    start, or absent when there is no such range.

    Every canonicality change is a *move*: a detached branch leaves the canonical
    map and an attached branch enters it.  `covered_move` and `links_move` say
    exactly what a move needs in order to keep the invariant, and the theorem on
    calls collects the conditions under which each repository method meets
    those needs. -/

namespace Store

open IntervalSet Transact MapUpdate List Option Finmap Fin Prod Except

variable {B H : Type} [DecidableEq H] [ChainBundle B H]

/-- Neighbouring canonical heights are parent-linked. -/
def Links (s : MemoryChain B H) : Prop :=
  ∀ n lower upper, n ≠ maxUint64 → s.refAt n = some lower → s.refAt (n + 1) = some upper →
    upper.parentHash = lower.hash

/-- Coverage is the set of canonical heights from `start` on. -/
def CoversCanonical (start : Uint64) (s : MemoryChain B H) : Prop :=
  ∀ n, Covers s.coverage n ↔ start ≤ n ∧ s.refAt n ≠ none

/-- The core checkpoint is the end of the range that starts at `start`. -/
def CheckpointAtEnd (start : Uint64) (s : MemoryChain B H) : Prop :=
  s.checkpoints.lookup coreCheckpoint
    = ((contiguousEnd start s.coverage).bind s.refAt).map newCoreCheckpoint

/-- The canonical invariant of a chain configured to start at `start`. -/
structure CanonicalInvariant (start : Uint64) (s : MemoryChain B H) : Prop where
  wellFormed : WellFormed s
  configured : s.configuredStart = some start
  covered : CoversCanonical start s
  links : Links s
  checkpoint : CheckpointAtEnd start s

/-! ## The contiguous range -/

variable {ranges : List BlockRange}

section

variable (hnorm : Normalized ranges)
include hnorm

/-- The first range of a normalized list starts at `start` exactly when `start`
    is covered, as long as nothing below `start` is. -/
theorem contiguousEnd_ne_none {start : Uint64} (hlow : ∀ n, Covers ranges n → start ≤ n) :
    contiguousEnd start ranges ≠ none ↔ Covers ranges start := by
  cases ranges with
  | nil => exact ⟨fun h => absurd rfl h, fun h => absurd h (covers_nil _)⟩
  | cons first rest =>
    rw [contiguousEnd]
    have hproper : first.start ≤ first.stop := hnorm.proper first mem_cons_self
    by_cases hfirst : first.start = start
    · rw [if_pos hfirst]
      refine ⟨fun _ => ?_, fun _ => some_ne_none _⟩
      exact ⟨first, mem_cons_self, hfirst.le, by rw [← hfirst]; exact hproper⟩
    · rw [if_neg hfirst]
      refine ⟨fun h => absurd rfl h, fun hcov => ?_⟩
      have h1 : first.start ≤ start := hnorm.head_le hcov
      have h2 : start ≤ first.start := hlow _ ⟨first, mem_cons_self, le_rfl, hproper⟩
      exact absurd (le_antisymm h1 h2) hfirst

theorem covers_contiguousEnd {start n : Uint64} (h : contiguousEnd start ranges = some n) :
    Covers ranges n := by
  cases ranges with
  | nil => cases h
  | cons first rest =>
    rw [contiguousEnd] at h
    by_cases hfirst : first.start = start
    · rw [if_pos hfirst] at h
      cases h
      exact ⟨first, mem_cons_self, hnorm.proper first mem_cons_self, le_rfl⟩
    · rw [if_neg hfirst] at h
      cases h

theorem covers_last {last : BlockRange}
    (h : ranges.getLast? = some last) : Covers ranges last.stop :=
  ⟨last, mem_of_getLast? h, hnorm.proper last (mem_of_getLast? h), le_rfl⟩

end

namespace CanonicalInvariant

variable {start : Uint64} {s : MemoryChain B H}

theorem start_le (h : CanonicalInvariant start s) {n : Uint64} (hn : Covers s.coverage n) :
    start ≤ n := ((h.covered n).mp hn).1

theorem contiguous_canonical (h : CanonicalInvariant start s) {n : Uint64}
    (hn : contiguousEnd start s.coverage = some n) : ∃ r, s.refAt n = some r :=
  ne_none_iff_exists'.mp ((h.covered n).mp (covers_contiguousEnd h.wellFormed.normalized hn)).2

end CanonicalInvariant

/-! ## Moves -/

section Move

variable {start : Uint64} {s t : MemoryChain B H} {detached : List (BlockRef H)}
  {items : List (BlockRef H × B)}

/-- A height the detached branch does not touch. -/
def Kept (detached : List (BlockRef H)) (n : Uint64) : Prop := ∀ d ∈ detached, d.number ≠ n

/-- The state `t` arises from `s` by taking `detached` out and putting the linked
    branch `items` in. -/
structure Moved (s t : MemoryChain B H) (detached : List (BlockRef H))
    (items : List (BlockRef H × B)) : Prop where
  before : WellFormed s
  after : WellFormed t
  owned : ∀ p ∈ items, Owned p
  linked : Linked (items.map fst)
  canonical : t.canonical = nextCanonical s detached items

namespace Moved

section

variable (h : Moved s t detached items)
include h

theorem unique : ∀ p ∈ items, ∀ q ∈ items, p.1.number = q.1.number → p.1 = q.1 :=
  fun _ hp _ hq hn =>
    h.linked.eq_of_number (mem_map_of_mem hp) (mem_map_of_mem hq) hn

theorem refAt_attached {p : BlockRef H × B} (hp : p ∈ items) : t.refAt p.1.number = some p.1 :=
  WellFormed.refAt_move_attached h.after h.owned h.unique h.canonical hp

variable {n : Uint64}

/-- A height outside the attached branch keeps its block unless it is detached. -/
theorem refAt_kept
    (hno : ∀ p ∈ items, p.1.number ≠ n) (hkeep : Kept detached n) : t.refAt n = s.refAt n :=
  WellFormed.refAt_move_kept h.before h.after h.canonical hno hkeep

theorem refAt_detached
    (hno : ∀ p ∈ items, p.1.number ≠ n) (hd : ¬ Kept detached n) : t.refAt n = none := by
  refine WellFormed.refAt_move_detached h.after h.canonical hno ?_
  by_contra hnone
  exact hd fun d hd hdn => hnone ⟨d, hd, hdn⟩

/-- The heights with a block after a move. -/
theorem refAt_ne_none (n : Uint64) : t.refAt n ≠ none ↔
      (s.refAt n ≠ none ∧ Kept detached n) ∨ ∃ p ∈ items, p.1.number = n := by
  by_cases hitem : ∃ p ∈ items, p.1.number = n
  · obtain ⟨p, hp, hpn⟩ := hitem
    refine ⟨fun _ => .inr ⟨p, hp, hpn⟩, fun _ => ?_⟩
    rw [← hpn, h.refAt_attached hp]
    exact some_ne_none _
  · have hno : ∀ p ∈ items, p.1.number ≠ n := fun p hp hpn => hitem ⟨p, hp, hpn⟩
    by_cases hkeep : Kept detached n
    · rw [h.refAt_kept hno hkeep]
      exact ⟨fun hn => .inl ⟨hn, hkeep⟩, fun hor => hor.elim And.left fun hex =>
        absurd hex hitem⟩
    · rw [h.refAt_detached hno hkeep]
      exact ⟨fun hn => absurd rfl hn,
        fun hor => hor.elim (fun hk => absurd hk.2 hkeep) fun hex => absurd hex hitem⟩

/-- A canonical block after a move was attached or was there before. -/
theorem refAt_cases {r : BlockRef H} (hr : t.refAt n = some r) :
    (∃ p ∈ items, p.1 = r ∧ r.number = n)
      ∨ ((∀ p ∈ items, p.1.number ≠ n) ∧ Kept detached n ∧ s.refAt n = some r) := by
  by_cases hitem : ∃ p ∈ items, p.1.number = n
  · obtain ⟨p, hp, hpn⟩ := hitem
    have := h.refAt_attached hp
    rw [hpn, hr] at this
    cases this
    exact .inl ⟨p, hp, rfl, hpn⟩
  · have hno : ∀ p ∈ items, p.1.number ≠ n := fun p hp hpn => hitem ⟨p, hp, hpn⟩
    by_cases hkeep : Kept detached n
    · rw [h.refAt_kept hno hkeep] at hr
      exact .inr ⟨hno, hkeep, hr⟩
    · rw [h.refAt_detached hno hkeep] at hr
      cases hr

end

end Moved

/-- **Coverage after a move** stays the set of canonical heights exactly when no
    attached block lies below the configured start. -/
theorem covered_move (h : Moved s t detached items) (hs : CoversCanonical start s)
    (hcov : ∀ n, Covers t.coverage n ↔
      (Covers s.coverage n ∧ Kept detached n) ∨ ∃ p ∈ items, p.1.number = n) :
    CoversCanonical start t ↔ ∀ p ∈ items, start ≤ p.1.number := by
  constructor
  · intro ht p hp
    exact ((ht p.1.number).mp ((hcov _).mpr (.inr ⟨p, hp, rfl⟩))).1
  · intro habove n
    rw [hcov n, h.refAt_ne_none n, hs n]
    constructor
    · rintro (⟨⟨hle, hn⟩, hkeep⟩ | ⟨p, hp, hpn⟩)
      · exact ⟨hle, .inl ⟨hn, hkeep⟩⟩
      · exact ⟨by rw [← hpn]; exact habove p hp, .inr ⟨p, hp, hpn⟩⟩
    · rintro ⟨hle, ⟨hn, hkeep⟩ | hitem⟩
      · exact .inl ⟨⟨hle, hn⟩, hkeep⟩
      · exact .inr hitem

/-- The block below the attached branch, when one stays, is its parent. -/
def LowerBoundary (s : MemoryChain B H) (detached : List (BlockRef H))
    (refs : List (BlockRef H)) : Prop :=
  ∀ first ∈ refs.head?, ∀ n r, n ≠ maxUint64 → n + 1 = first.number →
    Kept detached n →
    s.refAt n = some r → first.parentHash = r.hash

/-- The block above the attached branch, when one stays, is its child. -/
def UpperBoundary (s : MemoryChain B H) (detached : List (BlockRef H))
    (refs : List (BlockRef H)) : Prop :=
  ∀ last ∈ refs.getLast?, ∀ r, last.number ≠ maxUint64 →
    Kept detached (last.number + 1) →
    s.refAt (last.number + 1) = some r → r.parentHash = last.hash

/-- **Links after a move** hold exactly when the attached branch fits its two
    boundaries. -/
theorem links_move (h : Moved s t detached items) (hs : Links s) :
    Links t ↔ LowerBoundary s detached (items.map fst)
      ∧ UpperBoundary s detached (items.map fst) := by
  constructor
  · intro ht
    refine ⟨?_, ?_⟩
    · intro first hfirst n r hmax hn hkeep hr
      obtain ⟨p, hp, rfl⟩ := mem_map.mp (mem_of_mem_head? hfirst)
      -- the kept block below is not attached itself: the branch starts above it
      have hno : ∀ q ∈ items, q.1.number ≠ n := by
        intro q hq hqn
        obtain ⟨rest, hrest⟩ : ∃ rest, items.map fst = p.1 :: rest :=
          ⟨_, eq_cons_of_mem_head? hfirst⟩
        have hlink := h.linked
        have hqmem : q.1 ∈ items.map fst := mem_map_of_mem hq
        rw [hrest] at hlink hqmem
        have hle := hlink.le_of_mem hqmem
        rw [hqn, ← hn, le_def, val_add_one hmax] at hle
        omega
      refine ht n r p.1 hmax ?_ ?_
      · rw [h.refAt_kept hno hkeep]
        exact hr
      · rw [hn]
        exact h.refAt_attached hp
    · intro last hlast r hmax hkeep hr
      obtain ⟨p, hp, rfl⟩ := mem_map.mp (mem_of_getLast? hlast)
      have hno : ∀ q ∈ items, q.1.number ≠ p.1.number + 1 := by
        intro q hq hqn
        have hqmem : q.1 ∈ items.map fst := mem_map_of_mem hq
        obtain ⟨first, rest, hrest⟩ := exists_cons_of_ne_nil (ne_nil_of_mem hqmem)
        have hlink := h.linked
        rw [hrest] at hlink hqmem hlast
        have hle := ((hlink.mem_iff _).mp ⟨q.1, hqmem, rfl⟩).2
        rw [some.inj hlast, hqn, le_def, val_add_one hmax] at hle
        omega
      refine ht p.1.number p.1 r hmax (h.refAt_attached hp) ?_
      rw [h.refAt_kept hno hkeep]
      exact hr
  · rintro ⟨hlower, hupper⟩ n lower upper hmax hlo hup
    rcases h.refAt_cases hlo with ⟨p, hp, rfl, hpn⟩ | ⟨hno, hkeep, hold⟩ <;>
      rcases h.refAt_cases hup with ⟨q, hq, rfl, hqn⟩ | ⟨hno', hkeep', hold'⟩
    · -- both attached
      refine h.linked.parent_of_succ (mem_map_of_mem hp) (mem_map_of_mem hq) ?_
      rw [hpn, hqn]
      exact val_add_one hmax
    · -- the lower one attached, the upper one kept: the branch ends below it
      have hmaxp : p.1.number ≠ maxUint64 := by
        rw [hpn]
        exact hmax
      rcases h.linked.succ_mem_or_last (mem_map_of_mem hp) hmaxp with ⟨r, hr, hrn⟩ | hlast
      · obtain ⟨q, hq, rfl⟩ := mem_map.mp hr
        exact absurd (by rw [hrn, hpn]) (hno' q hq)
      · rw [← hpn] at hkeep' hold'
        exact hupper p.1 hlast upper hmaxp hkeep' hold'
    · -- the upper one attached, the lower one kept: the branch starts above it
      rcases h.linked.pred_mem_or_head (mem_map_of_mem hq) hmax hqn.symm with
        ⟨r, hr, hrn⟩ | hhead
      · obtain ⟨p, hp, rfl⟩ := mem_map.mp hr
        exact absurd hrn (hno p hp)
      · exact hlower q.1 hhead n lower hmax hqn.symm hkeep hold
    · exact hs n lower upper hmax hold hold'

end Move

/-! ## Segments -/

section Segment

variable {start : Uint64} {s t : MemoryChain B H} {items : List (BlockRef H × B)}
  {result : CoreCoverage H}

/-- The checkpoint a segment or a replacement leaves: the end of the contiguous
    range when there is one, the old checkpoint otherwise. -/
private theorem checkpoint_afterSegment {detached : List (BlockRef H)}
    {allow : Bool} {checkpoint : Option (Checkpoint H)}
    (hshadow : WellFormed (shadowChain s detached items ranges))
    (hconf : s.configuredStart = some start)
    (hresult : memoryCoverageLocked (shadowChain s detached items ranges) = .ok result)
    (hcheckpoint : segmentCheckpoint s result allow = .ok checkpoint) :
    checkpoint = ((contiguousEnd start ranges).bind
        (shadowChain s detached items ranges).refAt).map newCoreCheckpoint
      ∧ (contiguousEnd start ranges ≠ none → checkpoint ≠ none) := by
  obtain ⟨start', hstart', -, hcont, rfl⟩ := hshadow.coverageLocked_ok.mp hresult
  have heq : start' = start := Option.some.inj (hstart'.symm.trans hconf)
  subst heq
  have hvalue : checkpoint = ((contiguousEnd start' ranges).bind
      (shadowChain s detached items ranges).refAt).map newCoreCheckpoint := by
    unfold segmentCheckpoint at hcheckpoint
    cases hc : ((shadowChain s detached items ranges).view start').contiguous with
    | none =>
      rw [hc] at hcheckpoint
      cases hcheckpoint
      exact (congrArg (Option.map newCoreCheckpoint) hc).symm
    | some contiguous =>
      rw [hc] at hcheckpoint
      obtain ⟨_, -, hcheckpoint⟩ := bind_eq_ok.mp hcheckpoint
      rw [← pure_eq_ok.mp hcheckpoint]
      exact (congrArg (Option.map newCoreCheckpoint) hc).symm
  refine ⟨hvalue, ?_⟩
  intro hne
  obtain ⟨n, hn⟩ := ne_none_iff_exists'.mp hne
  obtain ⟨r, hr⟩ := ne_none_iff_exists'.mp (hcont n hn)
  rw [hvalue, hn, bind_some, hr]
  exact some_ne_none _

omit [DecidableEq H] [ChainBundle B H] in
private theorem lookup_newCheckpoint (s : MemoryChain B H) {checkpoint : Checkpoint H}
    {reference : Option (BlockRef H)} (h : some checkpoint = reference.map newCoreCheckpoint) :
    (setMemoryCheckpoint checkpoint s).checkpoints.lookup coreCheckpoint = some checkpoint := by
  obtain ⟨r, -, rfl⟩ := map_eq_some_iff.mp h.symm
  exact lookup_insert _

/-- The two boundary checks of a segment accept its boundaries. -/
private theorem segment_boundaries (hs : WellFormed s)
    (hlower : ∀ first ∈ (items.map fst).head?, checkSegmentLower s first = .ok ())
    (hupper : ∀ last ∈ (items.map fst).getLast?, checkSegmentUpper s last = .ok ()) :
    LowerBoundary s [] (items.map fst) ∧ UpperBoundary s [] (items.map fst) := by
  refine ⟨?_, ?_⟩
  · intro first hfirst n r hmax hn _ hr
    have h := hlower first hfirst
    have hv : first.number.val = n.val + 1 := by
      rw [← hn]
      exact val_add_one hmax
    have hpos : first.number > 0 := by
      show (0 : Uint64) < first.number
      rw [lt_def, hv]
      exact Nat.succ_pos _
    have hpred : first.number - 1 = n := by
      refine Fin.ext ?_
      rw [val_sub_one (ne_of_gt hpos), hv]
      rfl
    rw [checkSegmentLower, if_pos hpos, hpred] at h
    obtain ⟨lower, hread, h⟩ := bind_eq_ok.mp h
    rw [hs.canonicalRef_eq, hr] at hread
    cases hread
    rw [failIf_eq_ok] at h
    by_contra hne
    exact h ⟨r, rfl, hne⟩
  · intro last hlast r hmax _ hr
    have h := hupper last hlast
    have hlt : last.number < maxUint64 := lt_of_le_of_ne (Fin.le_last _) hmax
    rw [checkSegmentUpper, if_pos hlt] at h
    obtain ⟨upper, hread, h⟩ := bind_eq_ok.mp h
    rw [hs.canonicalRef_eq, hr] at hread
    cases hread
    rw [failIf_eq_ok] at h
    by_contra hne
    exact h ⟨r, rfl, hne⟩

section

omit [DecidableEq H] [ChainBundle B H]

theorem kept_nil (n : Uint64) : Kept ([] : List (BlockRef H)) n := fun _ hd => (nomatch hd)

/-- A linked branch from the start on lies above the start. -/
theorem start_le_items (hlinked : Linked (items.map fst))
    (habove : ∀ first ∈ (items.map fst).head?, start ≤ first.number) :
    ∀ p ∈ items, start ≤ p.1.number := by
  intro p hp
  have hmem : p.1 ∈ items.map fst := mem_map_of_mem hp
  obtain ⟨first, rest, hrest⟩ := exists_cons_of_ne_nil (ne_nil_of_mem hmem)
  have hfirst := habove first (by rw [hrest]; rfl)
  rw [hrest] at hlinked hmem
  exact le_trans hfirst (hlinked.le_of_mem hmem)

end

/-- The effect of a segment commit: a move without a detached branch that agrees
    with what is canonical already. -/
structure SegmentEffect (s t : MemoryChain B H) (start : Uint64)
    (items : List (BlockRef H × B)) : Prop where
  moved : Moved s t [] items
  configured : s.configuredStart = some start
  above : ∀ p ∈ items, start ≤ p.1.number
  covers : ∀ n, Covers t.coverage n ↔
    (Covers s.coverage n ∧ Kept ([] : List (BlockRef H)) n) ∨ ∃ p ∈ items, p.1.number = n
  lower : LowerBoundary s [] (items.map fst)
  upper : UpperBoundary s [] (items.map fst)
  start_eq : t.configuredStart = s.configuredStart
  finality_eq : t.finality = s.finality
  journals_eq : t.journals = s.journals
  agrees : ∀ p ∈ items, ∀ r, s.refAt p.1.number = some r → r = p.1

variable {bundles : List B}

/-- What a segment commit does. -/
theorem commitCanonicalSegment_effect
    (hs : WellFormed s) (h : (commitCanonicalSegment bundles).run s = (.ok result, t)) :
    ∃ items start, validateCanonicalSegment bundles = .ok items
      ∧ SegmentEffect s t start items := by
  have ht := commitCanonicalSegment_wellFormed hs h
  obtain ⟨items, start, ranges, checkpoint, hitems, hadm, rfl⟩ := commitCanonicalSegment_run h
  obtain ⟨-, howned, hlinked, -⟩ := validateCanonicalSegment_ok hitems
  obtain ⟨-, hcanonical, hstart, hfin, hjournals, hcoverage⟩ :=
    afterSegment_maps s [] items ranges checkpoint
  obtain ⟨-, -, hcov⟩ := normalizeCoverageRanges_ok hadm.ranges_eq
  obtain ⟨hlower, hupper⟩ := segment_boundaries hs hadm.lower hadm.upper
  refine ⟨items, start, hitems, ⟨⟨hs, ht, howned, hlinked, hcanonical⟩, hadm.configured,
    start_le_items hlinked hadm.above, ?_, hlower, hupper, hstart, hfin, hjournals, ?_⟩⟩
  · intro n
    rw [hcoverage, hcov n, covers_append]
    refine or_congr ⟨fun hn => ⟨hn, kept_nil n⟩, And.left⟩ ?_
    have hspan := hlinked.spanOf_has n
    simp only [List.mem_map, exists_exists_and_eq_and] at hspan
    simp only [Covers, mem_toList]
    exact hspan
  · intro p hp r hr
    have hheight := hadm.heights p hp
    obtain ⟨existing, hread, hcheck⟩ := bind_eq_ok.mp hheight
    rw [hs.canonicalRef_eq, hr] at hread
    cases hread
    rw [failIf_eq_ok] at hcheck
    obtain ⟨b, -, hb⟩ := hs.refAt_block hr
    refine hb.ref_unique (howned p hp) ?_
    by_contra hne
    exact hcheck ⟨r, rfl, .inl hne⟩

/-- A segment commit keeps the invariant. -/
theorem commitCanonicalSegment_invariant (hinv : CanonicalInvariant start s)
    (h : (commitCanonicalSegment bundles).run s = (.ok result, t)) :
    CanonicalInvariant start t := by
  have hs := hinv.wellFormed
  obtain ⟨items, start', hitems, heff⟩ := commitCanonicalSegment_effect hs h
  have heq : start' = start := some.inj (heff.configured.symm.trans hinv.configured)
  subst heq
  have hcovered : CoversCanonical start' t :=
    (covered_move heff.moved hinv.covered heff.covers).mpr heff.above
  refine ⟨heff.moved.after, by rw [heff.start_eq]; exact heff.configured, hcovered,
    (links_move heff.moved hinv.links).mpr ⟨heff.lower, heff.upper⟩, ?_⟩
  obtain ⟨items', start'', ranges, checkpoint, hitems', hadm, rfl⟩ :=
    commitCanonicalSegment_run h
  have hshadow : WellFormed (shadowChain s [] items' ranges) :=
    hs.move (validateCanonicalSegment_ok hitems').2.1 rfl rfl
      (by rw [shadowChain, heff.configured]; exact fun hno => absurd hno (some_ne_none _))
      (normalizeCoverageRanges_ok hadm.ranges_eq).2.1
  obtain ⟨hvalue, hsome⟩ := checkpoint_afterSegment hshadow heff.configured hadm.result_eq
    hadm.checkpoint_eq
  have hcoverage := (afterSegment_maps s [] items' ranges checkpoint).2.2.2.2.2
  unfold CheckpointAtEnd
  rw [hcoverage]
  have hrefAt : (afterSegment s [] items' ranges checkpoint).refAt
      = (shadowChain s [] items' ranges).refAt :=
    MemoryChain.refAt_congr (afterSegment_maps _ _ _ _ _).1 (afterSegment_maps _ _ _ _ _).2.1
  rw [hrefAt, ← hvalue]
  cases checkpoint with
  | some checkpoint => exact lookup_newCheckpoint _ hvalue
  | none =>
    -- no range reaches the start, so none did before either
    have hnone : ¬ Covers ranges start' := by
      intro hc
      have hend := (contiguousEnd_ne_none heff.moved.after.normalized
        (fun n hn => ((hcovered n).mp hn).1)).mpr hc
      exact hsome hend rfl
    have hold : contiguousEnd start' s.coverage = none := by
      by_contra hne
      refine hnone ((heff.covers _).mpr (.inl ⟨?_, kept_nil _⟩))
      exact (contiguousEnd_ne_none hs.normalized (fun n hn => hinv.start_le hn)).mp hne
    have := hinv.checkpoint
    unfold CheckpointAtEnd at this
    rw [hold] at this
    exact this

end Segment

/-! ## Reorgs -/

section Reorg

variable {start : Uint64} {s t : MemoryChain B H} {reorg : Reorg B H}

omit [DecidableEq H] [ChainBundle B H] in
theorem not_kept {detached : List (BlockRef H)} {n : Uint64} :
    ¬ Kept detached n ↔ ∃ d ∈ detached, d.number = n := by
  simp only [Kept, not_forall, ne_eq, not_not, exists_prop]

variable {owned : Reorg B H} {items : List (BlockRef H × B)} {checkpoint : Option (Checkpoint H)}

/-- The detached branch of an admitted reorg is the canonical chain above the
    ancestor: it starts at the tip and its heights do not wrap. -/
theorem reorg_detached_heights (hs : WellFormed s) (hacc : ReorgAccepted reorg owned items)
    (hadm : ReorgAdmitted s owned items ranges checkpoint) {top : BlockRef H}
    (htop : reorg.detached.val.head? = some top) :
    s.tip.map BlockRef.number = some top.number
      ∧ reorg.ancestor.number.val + reorg.detached.val.length = top.number.val
      ∧ ∀ n, ¬ Kept reorg.detached.val n ↔ reorg.ancestor.number < n
        ∧ n ≤ top.number := by
  obtain ⟨rest, hrest⟩ : ∃ rest, reorg.detached.val = top :: rest :=
    ⟨_, eq_cons_of_mem_head? htop⟩
  -- the tip is the first detached block
  obtain ⟨tip, htip, hhash⟩ : ∃ tip, s.tip = some tip ∧ tip.hash = top.hash := by
    have h := hadm.tip
    obtain ⟨tip, hread, h⟩ := bind_eq_ok.mp h
    rw [hs.memoryTip_eq] at hread
    cases tip with
    | none => cases h
    | some tip =>
      rw [failIf_eq_ok, hacc.detached] at h
      refine ⟨tip, ok.inj hread, ?_⟩
      by_contra hne
      exact h ⟨top, htop, hne⟩
  obtain ⟨htipref, htipmax⟩ := hs.tip_some.mp htip
  have htopcanon : s.canonical.lookup top.number = some top.hash :=
    hadm.detached top (by rw [hacc.detached, hrest]; exact mem_cons_self)
  obtain ⟨r, hr⟩ : ∃ r, s.refAt top.number = some r := by
    refine ne_none_iff_exists'.mp ?_
    rw [ne_eq, hs.refAt_eq_none, htopcanon]
    exact some_ne_none _
  obtain ⟨hrn, hrcanon⟩ := hs.refAt_some hr
  have hrtip : r = tip := by
    obtain ⟨b, -, hb⟩ := hs.refAt_block hr
    obtain ⟨c, -, hc⟩ := hs.refAt_block htipref
    refine hb.ref_unique hc ?_
    show r.hash = tip.hash
    rw [hhash]
    exact some.inj (hrcanon.symm.trans htopcanon)
  have htopnum : tip.number = top.number := by rw [← hrtip, hrn]
  -- the ancestor is not above the tip, so the heights cannot have wrapped
  obtain ⟨a, hanc, -⟩ := hadm.ancestor
  rw [hacc.ancestor, hs.canonicalRef_eq] at hanc
  have hancle : reorg.ancestor.number ≤ top.number := by
    rw [← htopnum]
    refine htipmax _ ?_
    rw [ok.inj hanc]
    exact some_ne_none _
  obtain ⟨hsum, hheights⟩ := countdown_heights reorg.detached.property hacc.heights htop hancle
  refine ⟨by rw [htip, map_some, htopnum], hsum, ?_⟩
  intro n
  rw [not_kept]
  exact hheights n

/-- The effect of a reorg on a configured chain. -/
structure ReorgEffect (s t : MemoryChain B H) (start : Uint64) (reorg : Reorg B H)
    (items : List (BlockRef H × B)) : Prop where
  moved : Moved s t reorg.detached.val items
  covers : ∀ n, Covers t.coverage n ↔
    (Covers s.coverage n ∧ Kept reorg.detached.val n) ∨ ∃ p ∈ items, p.1.number = n
  /-- The ancestor is canonical. -/
  ancestor : ∃ a, s.refAt reorg.ancestor.number = some a ∧ a.hash = reorg.ancestor.hash
  /-- What is detached lies above the ancestor and reaches up to the tip. -/
  detached_above : ∀ n, ¬ Kept reorg.detached.val n → reorg.ancestor.number < n
  detached_all : reorg.detached.val ≠ [] → ∀ n, reorg.ancestor.number < n →
    s.refAt n ≠ none → ¬ Kept reorg.detached.val n
  detached_next : reorg.detached.val ≠ [] →
    ¬ Kept reorg.detached.val (reorg.ancestor.number + 1)
  detached_covered : ∀ n, ¬ Kept reorg.detached.val n → Covers s.coverage n
  changes : reorg.detached.val ≠ [] ∨ items ≠ []
  /-- The attached branch continues the ancestor, with wrapping heights. -/
  starts : ∀ first ∈ (items.map fst).head?, WrapFollows reorg.ancestor first
  copies : List.Forall₂ (fun b p => cloneBundle b = .ok p.2) reorg.attached.val items
  start_eq : t.configuredStart = s.configuredStart
  finality_eq : t.finality = s.finality
  finalized : ∀ finalized ∈ s.finalizedNumber, finalized ≤ reorg.ancestor.number
  checkpoint : CheckpointAtEnd start t

omit [DecidableEq H] in
/-- The attached branch of an admitted reorg on a configured chain is linked: its
    range is proper, and a slice cannot wrap around to a proper range. -/
private theorem reorg_items_linked {added : Option BlockRange}
    (hacc : ReorgAccepted reorg owned items)
    (hadded : attachedRange owned.attached.val = .ok added) (hproper : ∀ r ∈ added, r.Proper) :
    Linked (items.map fst) ∧ added = spanOf (items.map fst) := by
  rw [hacc.attached, attachedRange_owned hacc.owned] at hadded
  have hspan := (ok.inj hadded).symm
  refine ⟨?_, hspan⟩
  have hlen : (items.map fst).length < 9223372036854775808 := by
    have := owned.attached.property
    rw [hacc.attached, length_map] at this
    rw [length_map]
    exact this
  have hchain : (items.map fst).IsChain WrapFollows := IsChain.tail hacc.chain
  cases hrefs : items.map fst with
  | nil => exact IsChain.nil
  | cons first rest =>
    rw [hrefs] at hchain hlen
    refine linked_of_le hchain (Nat.lt_of_succ_lt hlen) ?_
    have hsome : spanOf (first :: rest) = some ⟨first.number,
        ((first :: rest).getLast (cons_ne_nil _ _)).number⟩ := by
      unfold spanOf
      rw [head?_cons, getLast?_eq_some_getLast (cons_ne_nil first rest)]
    rw [hrefs] at hspan
    exact hproper _ (by rw [hspan, hsome]; rfl)

/-- The checkpoint of a reorg is at the contiguous end. -/
private theorem reorg_checkpoint_end (hconf : s.configuredStart = some start)
    (hshadow : WellFormed (shadowChain s owned.detached.val items ranges))
    (h : reorgCheckpoint (shadowChain s owned.detached.val items ranges) owned = .ok checkpoint) :
    CheckpointAtEnd start (afterReorg s owned items ranges checkpoint) := by
  have hmaps := afterReorg_maps s owned items ranges checkpoint
  have hrefAt : (afterReorg s owned items ranges checkpoint).refAt
      = (shadowChain s owned.detached.val items ranges).refAt :=
    MemoryChain.refAt_congr hmaps.1 hmaps.2.1
  have hcoverage := hmaps.2.2.2.2
  rw [if_neg (by rw [hconf]; exact some_ne_none _)] at hcoverage
  unfold CheckpointAtEnd
  rw [hcoverage, hrefAt]
  have hvalue : checkpoint = ((contiguousEnd start ranges).bind
      (shadowChain s owned.detached.val items ranges).refAt).map newCoreCheckpoint := by
    unfold reorgCheckpoint at h
    rw [show (shadowChain s owned.detached.val items ranges).configuredStart = some start
      from hconf] at h
    obtain ⟨coverage, hcov, hpure⟩ := bind_eq_ok.mp h
    obtain ⟨start', hstart', -, -, rfl⟩ := hshadow.coverageLocked_ok.mp hcov
    have heq : start' = start := some.inj (hstart'.symm.trans hconf)
    subst heq
    exact (pure_eq_ok.mp hpure).symm
  rw [← hvalue]
  unfold afterReorg
  rw [if_neg (by rw [hconf]; exact some_ne_none _)]
  cases checkpoint with
  | none => exact lookup_erase _ _
  | some checkpoint => exact lookup_newCheckpoint _ hvalue

section

variable (hs : WellFormed s) (hacc : ReorgAccepted reorg owned items)
  (hadm : ReorgAdmitted s owned items ranges checkpoint)

include hs hacc hadm

/-- A detached branch reaches from the tip down to the ancestor. -/
private theorem reorg_branch (hne : reorg.detached.val ≠ []) :
    ∃ top, reorg.detached.val.head? = some top
      ∧ s.tip.map BlockRef.number = some top.number ∧ reorg.ancestor.number < top.number
      ∧ ∀ n, ¬ Kept reorg.detached.val n
        ↔ reorg.ancestor.number < n ∧ n ≤ top.number := by
  obtain ⟨top, rest, hrest⟩ := exists_cons_of_ne_nil hne
  have htop : reorg.detached.val.head? = some top := by rw [hrest]; rfl
  obtain ⟨htip, hsum, hheights⟩ := reorg_detached_heights hs hacc hadm htop
  have hpos : 0 < reorg.detached.val.length := length_pos_of_ne_nil hne
  exact ⟨top, htop, htip, by rw [lt_def]; omega, hheights⟩

/-- The heights taken out of coverage are those of the detached branch. -/
private theorem removes_iff {n : Uint64} : owned.Removes n ↔ ¬ Kept reorg.detached.val n := by
  unfold Reorg.Removes
  rw [hacc.detached, hacc.ancestor]
  constructor
  · rintro ⟨top, htop, hlo, hhi⟩
    obtain ⟨top', htop', -, hlt, hheights⟩ :=
      reorg_branch hs hacc hadm (ne_nil_of_mem (mem_of_mem_head? htop))
    cases htop.symm.trans htop'
    exact (hheights n).mpr ⟨(next_le_iff (ne_maxUint64_of_lt hlt)).mp hlo, hhi⟩
  · intro hno
    obtain ⟨d, hd, -⟩ := not_kept.mp hno
    obtain ⟨top, htop, -, hlt, hheights⟩ := reorg_branch hs hacc hadm (ne_nil_of_mem hd)
    obtain ⟨hlo, hhi⟩ := (hheights n).mp hno
    exact ⟨top, htop, (next_le_iff (ne_maxUint64_of_lt hlt)).mpr hlo, hhi⟩

end

/-- What a reorg does. -/
theorem applyReorg_effect {u : Unit} (hs : WellFormed s) (hconf : s.configuredStart = some start)
    (h : (applyReorg reorg).run s = (.ok u, t)) :
    ∃ items, ReorgEffect s t start reorg items := by
  have ht := applyReorg_wellFormed hs h
  obtain ⟨owned, items, ranges, checkpoint, hown, hadm, rfl⟩ := applyReorg_run h
  have hacc := ownReorg_ok hown
  obtain ⟨hblocks, hcanonical, hstart, hfin, hcoverage⟩ :=
    afterReorg_maps s owned items ranges checkpoint
  rw [if_neg (by rw [hconf]; exact some_ne_none _)] at hcoverage
  have hranges := hadm.ranges_eq
  rw [reorgRanges, hconf] at hranges
  obtain ⟨hnorm, -, hremcov, added, hadded, hproper, hcov⟩ :=
    coverageRangesAfterReorg_ok hranges
  obtain ⟨hlinked, hspan⟩ := reorg_items_linked hacc hadded hproper
  have hbranch := reorg_branch hs hacc hadm
  have hitemspan : ∀ n, (∃ r ∈ added, r.Has n) ↔ ∃ p ∈ items, p.1.number = n := by
    intro n
    rw [hspan, hlinked.spanOf_has n]
    simp only [List.mem_map, exists_exists_and_eq_and]
  rw [hacc.detached] at hcanonical
  obtain ⟨a, hanc, hahash⟩ := hadm.ancestor
  rw [hacc.ancestor, hs.canonicalRef_eq] at hanc
  rw [hacc.ancestor] at hahash
  refine ⟨items, ⟨hs, ht, hacc.owned, hlinked, hcanonical⟩, ?_,
    ⟨a, ok.inj hanc, hahash⟩, ?_, ?_, ?_, ?_, hacc.changes, ?_, hacc.copies, hstart, hfin,
    ?_, ?_⟩
  · intro n
    rw [hcoverage, hcov n, hitemspan n, removes_iff hs hacc hadm, not_not]
  · intro n hno
    obtain ⟨d, hd, -⟩ := not_kept.mp hno
    obtain ⟨top, -, -, -, hheights⟩ := hbranch (ne_nil_of_mem hd)
    exact ((hheights n).mp hno).1
  · intro hne n hlo hn
    obtain ⟨top, -, htip, -, hheights⟩ := hbranch hne
    obtain ⟨tip, htip', hnum⟩ := map_eq_some_iff.mp htip
    refine (hheights n).mpr ⟨hlo, ?_⟩
    rw [← hnum]
    exact (hs.tip_some.mp htip').2 n hn
  · intro hne
    obtain ⟨top, -, -, hlt, hheights⟩ := hbranch hne
    have hnext := val_add_one (ne_maxUint64_of_lt hlt)
    rw [lt_def] at hlt
    refine (hheights _).mpr ⟨?_, ?_⟩
    · rw [lt_def]
      omega
    · rw [Fin.le_def]
      omega
  · intro n hno
    exact hremcov n ((removes_iff hs hacc hadm).mpr hno)
  · intro first hfirst
    have hchain := hacc.chain
    obtain ⟨rest, hrest⟩ : ∃ rest, items.map fst = first :: rest :=
      ⟨_, eq_cons_of_mem_head? hfirst⟩
    rw [hrest] at hchain
    exact IsChain.rel hchain
  · rw [← hacc.ancestor]
    exact hadm.finalized
  · refine reorg_checkpoint_end hconf ?_ hadm.checkpoint_eq
    refine hs.move hacc.owned rfl rfl ?_ hnorm
    rw [shadowChain, hconf]
    exact fun hno => absurd hno (some_ne_none _)

/-- The invariant after a reorg, read off the attached branch. -/
theorem ReorgEffect.invariant_iff
    (heff : ReorgEffect s t start reorg items) (hinv : CanonicalInvariant start s) :
    CanonicalInvariant start t ↔ (∀ p ∈ items, start ≤ p.1.number)
      ∧ LowerBoundary s reorg.detached.val (items.map fst)
      ∧ UpperBoundary s reorg.detached.val (items.map fst) := by
  constructor
  · intro ht
    exact ⟨(covered_move heff.moved hinv.covered heff.covers).mp ht.covered,
      (links_move heff.moved hinv.links).mp ht.links⟩
  · rintro ⟨habove, hboundaries⟩
    exact ⟨heff.moved.after, by rw [heff.start_eq]; exact hinv.configured,
      (covered_move heff.moved hinv.covered heff.covers).mpr habove,
      (links_move heff.moved hinv.links).mpr hboundaries, heff.checkpoint⟩

/-- The block below the attached branch of a reorg is the ancestor. -/
theorem ReorgEffect.lower (heff : ReorgEffect s t start reorg items) :
    LowerBoundary s reorg.detached.val (items.map fst) := by
  intro first hfirst n r hmax hn _ hr
  obtain ⟨hnumber, hparent⟩ := heff.starts first hfirst
  obtain ⟨a, ha, hahash⟩ := heff.ancestor
  have hnanc : n = reorg.ancestor.number := add_one_inj (hn.trans hnumber)
  rw [hnanc, ha] at hr
  cases hr
  rw [hparent, hahash]

omit [DecidableEq H] in
/-- The last reference of an accepted branch is that of the last bundle. -/
theorem mem_getLast_refs {bundles : List B}
    (hcopies : Forall₂ (fun b p => cloneBundle b = .ok p.2) bundles items)
    (howned : ∀ p ∈ items, Owned p) {last : BlockRef H} :
    last ∈ (items.map fst).getLast? ↔ ∃ bundle ∈ bundles.getLast?,
      refFromBundle bundle = .ok last := by
  induction hcopies with
  | nil => simp
  | @cons b p bundles items hclone hrest ih =>
    cases hrest with
    | nil =>
      have hown := (howned p mem_cons_self).1
      rw [refFromBundle_clone hclone] at hown
      simp [hown]
    | cons hclone' hrest =>
      rw [map_cons, map_cons, getLast?_cons_cons, getLast?_cons_cons, ← map_cons]
      exact ih fun q hq => howned q (mem_cons_of_mem _ hq)

/-- **A reorg keeps the invariant** exactly when it detaches something, or else
    attaches at or above the configured start and below a block that stays only
    as its parent. -/
theorem applyReorg_invariant_iff {u : Unit} (hinv : CanonicalInvariant start s)
    (h : (applyReorg reorg).run s = (.ok u, t)) :
    CanonicalInvariant start t ↔ reorg.detached.val ≠ []
      ∨ (start ≤ reorg.ancestor.number + 1
        ∧ ∀ bundle ∈ reorg.attached.val.getLast?, ∀ last,
          refFromBundle bundle = .ok last →
          last.number ≠ maxUint64 → ∀ upper, s.refAt (last.number + 1) = some upper →
            upper.parentHash = last.hash) := by
  obtain ⟨items, heff⟩ := applyReorg_effect hinv.wellFormed hinv.configured h
  rw [heff.invariant_iff hinv]
  by_cases hnil : reorg.detached.val = []
  · -- nothing is detached: the argument decides
    obtain ⟨p, rest, rfl⟩ :=
      exists_cons_of_ne_nil (heff.changes.resolve_left fun hne => hne hnil)
    have hfirst : p.1.number = reorg.ancestor.number + 1 := (heff.starts p.1 rfl).1
    have hupper : UpperBoundary s reorg.detached.val ((p :: rest).map fst) ↔
        ∀ bundle ∈ reorg.attached.val.getLast?, ∀ last, refFromBundle bundle = .ok last →
          last.number ≠ maxUint64 → ∀ upper, s.refAt (last.number + 1) = some upper →
            upper.parentHash = last.hash := by
      simp only [UpperBoundary, mem_getLast_refs heff.copies heff.moved.owned, hnil, kept_nil]
      grind
    rw [hupper]
    constructor
    · rintro ⟨habove, -, hupper⟩
      refine .inr ⟨?_, hupper⟩
      rw [← hfirst]
      exact habove p mem_cons_self
    · rintro (hne | ⟨hstart, hupper⟩)
      · exact absurd hnil hne
      · refine ⟨start_le_items heff.moved.linked ?_, heff.lower, hupper⟩
        intro first hf
        cases hf
        rw [hfirst]
        exact hstart
  · -- the whole chain above the ancestor goes, and the branch replaces it
    refine ⟨fun _ => .inl hnil,
      fun _ => ⟨start_le_items heff.moved.linked ?_, heff.lower, ?_⟩⟩
    · intro first hf
      rw [(heff.starts first hf).1]
      exact hinv.start_le (heff.detached_covered _ (heff.detached_next hnil))
    · intro last hlast r hmax hkeep hr
      refine absurd hkeep (heff.detached_all hnil _ ?_ (by rw [hr]; exact some_ne_none _))
      have hmem := mem_of_getLast? hlast
      obtain ⟨first, rest, hrest⟩ := exists_cons_of_ne_nil (ne_nil_of_mem hmem)
      have hlinked := heff.moved.linked
      rw [hrest] at hlinked hmem
      have hle := hlinked.le_of_mem hmem
      have hnum := (heff.starts first (by rw [hrest]; rfl)).1
      have hanc : reorg.ancestor.number < reorg.ancestor.number + 1 :=
        heff.detached_above _ (heff.detached_next hnil)
      rw [lt_def] at hanc ⊢
      rw [hnum, le_def] at hle
      rw [val_add_one hmax]
      omega

end Reorg

/-! ## Sparse replacements -/

section Replacement

variable {start : Uint64} {s t : MemoryChain B H}
  {replacement : SparseCanonicalReplacement B H} {items : List (BlockRef H × B)}

/-- What a replacement does: the blocks it moves, the coverage after it, its boundaries
    and the checkpoint. -/
structure ReplacementEffect (s t : MemoryChain B H) (start : Uint64)
    (replacement : SparseCanonicalReplacement B H) (items : List (BlockRef H × B)) : Prop where
  accepted : SparseAccepted replacement items
  moved : Moved s t replacement.detached.val items
  covers : ∀ n, Covers t.coverage n ↔
    (Covers s.coverage n ∧ Kept replacement.detached.val n) ∨ ∃ p ∈ items, p.1.number = n
  highest : s.coverage.getLast? = some replacement.range
  disconnected : replacement.range.start ≠ start
  nonempty : replacement.detached.val ≠ []
  tip : s.tip.map BlockRef.number = some replacement.range.stop
  detached : ∀ d ∈ replacement.detached.val, s.refAt d.number = some d
  above : ∀ a ∈ replacement.ancestor, canonicalAbove s a.number
    = replacement.detached.val.length
  finalized : ∀ finalized ∈ s.finalizedNumber,
    (∀ a ∈ replacement.ancestor, finalized ≤ a.number)
      ∧ (replacement.ancestor = none → finalized < replacement.range.start)
  start_eq : t.configuredStart = s.configuredStart
  finality_eq : t.finality = s.finality
  journals_eq : t.journals = adjustAll [] (setFlags true) BlockRef.hash (items.map fst)
    (adjustAll [] (setFlags false) BlockRef.hash replacement.detached.val s.journals)
  /-- The checkpoint follows the contiguous range but is not dropped with it. -/
  checkpoint : t.checkpoints.lookup coreCheckpoint =
    if contiguousEnd start t.coverage = none then s.checkpoints.lookup coreCheckpoint
    else ((contiguousEnd start t.coverage).bind t.refAt).map newCoreCheckpoint

/-- An accepted replacement detaches from the tip down. -/
private theorem checkReplacementTip_ok (hs : WellFormed s)
    (h : checkReplacementTip s replacement = .ok ()) :
    replacement.detached.val ≠ []
      ∧ s.tip.map BlockRef.number = some replacement.range.stop := by
  obtain ⟨tip, hread, h⟩ := bind_eq_ok.mp h
  rw [hs.memoryTip_eq] at hread
  cases tip with
  | none => cases h
  | some tip =>
    cases hd : replacement.detached.val with
    | nil =>
      rw [hd] at h
      cases h
    | cons top rest =>
      rw [hd] at h
      simp only [head?_cons] at h
      rw [failIf_eq_ok, not_or, not_not] at h
      refine ⟨cons_ne_nil _ _, ?_⟩
      rw [ok.inj hread, map_some, h.1]

omit [DecidableEq H] [ChainBundle B H] in
/-- An accepted replacement detaches nothing that is final. -/
theorem checkReplacementFinality_ok (h : checkReplacementFinality s replacement = .ok ()) :
    ∀ finalized ∈ s.finalizedNumber, (∀ a ∈ replacement.ancestor, finalized ≤ a.number)
      ∧ (replacement.ancestor = none → finalized < replacement.range.start) := by
  intro finalized hf
  unfold checkReplacementFinality at h
  rw [hf] at h
  obtain ⟨_, h1, h2⟩ := bind_eq_ok.mp h
  rw [failIf_eq_ok] at h1 h2
  refine ⟨?_, ?_⟩
  · intro a ha
    exact not_lt.mp fun hlt => h1 ⟨a, ha, hlt⟩
  · intro hnone
    exact not_le.mp fun hle => h2 ⟨hnone, hle⟩

/-- What a replacement does to the chain. -/
theorem replaceHighestCanonicalSegment_effect {result : CoreCoverage H} (hs : WellFormed s)
    (hconf : s.configuredStart = some start)
    (h : (replaceHighestCanonicalSegment replacement).run s = (.ok result, t)) :
    ∃ items, ReplacementEffect s t start replacement items := by
  have ht := replaceHighestCanonicalSegment_wellFormed hs h
  obtain ⟨items, start', ranges, checkpoint, hitems, hadm, rfl⟩ :=
    replaceHighestCanonicalSegment_run h
  have heq : start' = start := some.inj (hadm.configured.symm.trans hconf)
  subst heq
  have hacc := validateSparseCanonicalReplacement_ok hitems
  obtain ⟨hblocks, hcanonical, hstart, hfin, hcoverage⟩ :=
    afterReplacement_maps s replacement items ranges checkpoint
  obtain ⟨hnorm, -, -, hcov⟩ := coverageRangesAfterSparseReplacement_ok hadm.ranges_eq
  obtain ⟨hne, htip⟩ := checkReplacementTip_ok hs hadm.tip
  obtain ⟨hhighest, hdisc⟩ := validateHighestDisconnectedRange_ok hadm.highest
  refine ⟨items, hacc, ⟨hs, ht, hacc.owned, hacc.linked, hcanonical⟩, ?_,
    hhighest, hdisc, hne,
    htip, ?_, hadm.above, checkReplacementFinality_ok hadm.finalized, hstart, hfin,
    afterReplacement_journals s replacement items ranges checkpoint, ?_⟩
  · intro n
    rw [hcoverage, hcov n, hacc.linked.spanOf_has n]
    simp only [List.mem_map, exists_exists_and_eq_and, Kept]
  · intro d hd
    have := hadm.detached d hd
    rw [hs.canonicalRef_eq] at this
    exact ok.inj this
  · -- the checkpoint is computed from the coverage that is about to be stored
    have hshadow : WellFormed (shadowChain s replacement.detached.val items ranges) :=
      hs.move hacc.owned rfl rfl
        (by rw [shadowChain, hconf]; exact fun hno => absurd hno (some_ne_none _)) hnorm
    obtain ⟨hvalue, hsome⟩ := checkpoint_afterSegment hshadow hconf hadm.result_eq
      hadm.checkpoint_eq
    have hrefAt : (afterReplacement s replacement items ranges checkpoint).refAt
        = (shadowChain s replacement.detached.val items ranges).refAt :=
      MemoryChain.refAt_congr hblocks hcanonical
    rw [hcoverage, hrefAt, ← hvalue]
    by_cases hend : contiguousEnd start' ranges = none
    · rw [if_pos hend]
      have hnone : checkpoint = none := by
        rw [hvalue, hend]
        rfl
      rw [hnone]
      rfl
    · rw [if_neg hend]
      obtain ⟨c, hc⟩ := ne_none_iff_exists'.mp (hsome hend)
      rw [hc] at hvalue ⊢
      exact lookup_newCheckpoint _ hvalue

/-- The invariant after a replacement, read off the attached branch. -/
theorem ReplacementEffect.invariant_iff (heff : ReplacementEffect s t start replacement items)
    (hinv : CanonicalInvariant start s) :
    CanonicalInvariant start t ↔ (∀ p ∈ items, start ≤ p.1.number)
      ∧ LowerBoundary s replacement.detached.val (items.map fst)
      ∧ UpperBoundary s replacement.detached.val (items.map fst)
      ∧ (Covers s.coverage start → Covers t.coverage start) := by
  have hold : contiguousEnd start s.coverage ≠ none ↔ Covers s.coverage start :=
    contiguousEnd_ne_none hinv.wellFormed.normalized (fun n hn => hinv.start_le hn)
  have hckpt := hinv.checkpoint
  constructor
  · intro ht
    have hnew : contiguousEnd start t.coverage ≠ none ↔ Covers t.coverage start :=
      contiguousEnd_ne_none ht.wellFormed.normalized (fun n hn => ht.start_le hn)
    refine ⟨(covered_move heff.moved hinv.covered heff.covers).mp ht.covered,
      ((links_move heff.moved hinv.links).mp ht.links).1,
      ((links_move heff.moved hinv.links).mp ht.links).2, ?_⟩
    intro hc
    by_contra hnot
    -- the old checkpoint survives although no range reaches the start any more
    have hend : contiguousEnd start t.coverage = none := by
      by_contra hne
      exact hnot (hnew.mp hne)
    obtain ⟨n, hn⟩ := ne_none_iff_exists'.mp (hold.mpr hc)
    obtain ⟨r, hr⟩ := hinv.contiguous_canonical hn
    have hkept := heff.checkpoint
    rw [if_pos hend, hckpt, hn, bind_some, hr] at hkept
    have hdropped := ht.checkpoint
    unfold CheckpointAtEnd at hdropped
    rw [hend, hkept] at hdropped
    cases hdropped
  · rintro ⟨habove, hlower, hupper, hreach⟩
    have hcovered := (covered_move heff.moved hinv.covered heff.covers).mpr habove
    refine ⟨heff.moved.after, by rw [heff.start_eq]; exact hinv.configured, hcovered,
      (links_move heff.moved hinv.links).mpr ⟨hlower, hupper⟩, ?_⟩
    unfold CheckpointAtEnd
    rw [heff.checkpoint]
    by_cases hend : contiguousEnd start t.coverage = none
    · rw [if_pos hend, hckpt]
      have hnot : contiguousEnd start s.coverage = none := by
        by_contra hne
        exact (contiguousEnd_ne_none heff.moved.after.normalized
          (fun n hn => ((hcovered n).mp hn).1)).mpr (hreach (hold.mp hne)) hend
      rw [hnot, hend]
      rfl
    · rw [if_neg hend]

end Replacement

end Store
