import Mathlib
import Etherview.StoreFinality

/-! # Coverage across a transition

    `coverageRangesAfterReorg` cuts the whole interval above the ancestor,
    `coverageRangesAfterSparseReplacement` takes the detached heights out one at a
    time.  Both return the normal form of one set: what was covered, without the
    detached heights, with the attached ones.

    * A sparse replacement that passes its validation always does
      (`SparseAccepted.coverageExact`).
    * A reorg that passes `validateReorg` does so on the coverages of
      `Reorg.Regular` and on no others (`ReorgChecked.coverageExact_iff`): the
      validation compares heights with wrapping arithmetic, so it also accepts
      branches that run past `2 ^ 64 - 1` and continue at height 0.  The interval of
      such a branch has its end below its start, and the two halves of the
      computation read that as an empty or an invalid interval.
    * On one transition the two functions agree: a set has one normal form. -/

namespace Store

open IntervalSet Transact List Option Prod Except

variable {B H : Type}

/-! ## What the two functions are for -/

/-- The heights between the ancestor and the old tip: `(ancestor, old tip]`. -/
def Reorg.Above (reorg : Reorg B H) (n : Uint64) : Prop :=
  ∃ top ∈ reorg.detached.val.head?, reorg.ancestor.number < n ∧ n ≤ top.number

/-- A branch holds a block at height `n`. -/
def HoldsHeight (branch : List (BlockRef H)) (n : Uint64) : Prop := ∃ r ∈ branch, r.number = n

/-- `next` is the normal form of the covered heights without the detached ones and
    with the attached ones. -/
def ExactAfter (ranges : List BlockRange) (detached attached : List (BlockRef H))
    (next : List BlockRange) : Prop :=
  Normalized next
    ∧ ∀ n, Covers next n ↔ (Covers ranges n ∧ ¬ HoldsHeight detached n)
      ∨ HoldsHeight attached n

/-- Two exact results are one list. -/
theorem ExactAfter.unique {ranges next other : List BlockRange}
    {detached attached : List (BlockRef H)} (h : ExactAfter ranges detached attached next)
    (h' : ExactAfter ranges detached attached other) : next = other :=
  h.1.eq_of_covers h'.1 (fun n => by rw [h.2 n, h'.2 n])

section Transitions

variable [ChainBundle B H]

/-- What `coverageRangesAfterReorg` promises for a coverage and a reorg whose
    attached references are `attached`. -/
structure Reorg.CoverageExact (ranges : List BlockRange) (reorg : Reorg B H)
    (attached : List (BlockRef H)) : Prop where
  fails_iff : (∃ err, coverageRangesAfterReorg ranges reorg = .error err) ↔
    (∃ n, reorg.Above n ∧ ¬ Covers ranges n)
      ∨ (reorg.ancestor.number = maxUint64 ∧ reorg.detached.val ≠ [])
  exact_of_ok : ∀ next, coverageRangesAfterReorg ranges reorg = .ok next →
    ExactAfter ranges reorg.detached.val attached next

/-- What `coverageRangesAfterSparseReplacement` promises. -/
structure SparseCanonicalReplacement.CoverageExact (ranges : List BlockRange)
    (replacement : SparseCanonicalReplacement B H) (attached : List (BlockRef H)) : Prop where
  fails_iff :
    (∃ err, coverageRangesAfterSparseReplacement ranges replacement attached = .error err) ↔
      ∃ d ∈ replacement.detached.val, ¬ Covers ranges d.number
  exact_of_ok : ∀ next,
    coverageRangesAfterSparseReplacement ranges replacement attached = .ok next →
      ExactAfter ranges replacement.detached.val attached next

/-- The detached heights do not run past the last one. -/
def Reorg.DetachedFits (reorg : Reorg B H) : Prop :=
  ∀ top ∈ reorg.detached.val.head?, reorg.ancestor.number < top.number

/-- The attached heights do not run past the last one; above the last one they start
    at 0. -/
def Reorg.AttachedFits (reorg : Reorg B H) : Prop :=
  reorg.ancestor.number = maxUint64
    ∨ reorg.ancestor.number.val + reorg.attached.val.length < 18446744073709551616

/-- The coverages on which a reorg computes what it promises.  The ancestor is the last
    height and blocks are detached, which is refused.  Or the detached heights fit, and
    one of them is not covered or the attached ones fit too.  Or the detached heights
    wrap, and still one range reaches from the block after the ancestor back to the old
    tip, the attached heights fit, and every detached height that is covered is attached
    again. -/
def Reorg.Regular (ranges : List BlockRange) (reorg : Reorg B H)
    (attached : List (BlockRef H)) : Prop :=
  (reorg.ancestor.number = maxUint64 ∧ reorg.detached.val ≠ [])
    ∨ (reorg.DetachedFits
      ∧ ((∃ n, reorg.Above n ∧ ¬ Covers ranges n) ∨ reorg.AttachedFits))
    ∨ (reorg.AttachedFits
      ∧ (∃ top ∈ reorg.detached.val.head?, top.number ≤ reorg.ancestor.number
        ∧ ∃ range ∈ ranges, range.start ≤ reorg.ancestor.number + 1
          ∧ top.number ≤ range.stop)
      ∧ ∀ n, Covers ranges n → HoldsHeight reorg.detached.val n → HoldsHeight attached n)

/-! ## Reorgs -/

private theorem error_or_ok {ε α : Type} (x : Except ε α) :
    (∃ err, x = .error err) ↔ ¬ ∃ a, x = .ok a := by
  cases x with
  | error err => simp
  | ok a => simp

section Reorgs

variable {reorg : Reorg B H} {items : List (BlockRef H × B)} {ranges : List BlockRange}

/-- A checked reorg attaches the interval its references span. -/
theorem ReorgChecked.attachedRange_eq (hchk : ReorgChecked reorg items) :
    attachedRange reorg.attached.val = .ok (spanOf (items.map fst)) := by
  rw [hchk.attached]
  exact attachedRange_refs hchk.refs

/-- The attached interval is proper iff the attached heights fit. -/
theorem ReorgChecked.attachedFits_iff (hchk : ReorgChecked reorg items) :
    reorg.AttachedFits ↔ ∀ added ∈ spanOf (items.map fst), added.Proper := by
  have hlength : reorg.attached.val.length = (items.map fst).length := by
    rw [hchk.attached, length_map, length_map]
  have hshort := reorg.attached.property
  have hchain := hchk.chain
  unfold Reorg.AttachedFits
  rw [hlength] at hshort ⊢
  generalize items.map fst = refs at hshort hchain ⊢
  cases refs with
  | nil =>
    refine ⟨fun _ added h => (by cases h), fun _ => .inr ?_⟩
    exact reorg.ancestor.number.isLt
  | cons first rest =>
    have hspan : spanOf (first :: rest)
        = some ⟨first.number, ((first :: rest).getLast (cons_ne_nil _ _)).number⟩ := by
      rw [spanOf, head?_cons, getLast?_eq_some_getLast (cons_ne_nil first rest)]
    have hfirst : first.number.val = (reorg.ancestor.number.val + 1) % 18446744073709551616 := by
      rw [(IsChain.rel hchain).1]
      rfl
    have hlast := wrap_last_val (IsChain.tail hchain)
    have hancestor := reorg.ancestor.number.isLt
    rw [hspan, eq_maxUint64_iff]
    simp only [mem_some_iff, forall_eq', Span.Proper, Fin.le_def, hlast]
    rw [length_cons] at hshort ⊢
    omega

/-- Attached heights that fit are linked without wrapping. -/
theorem ReorgChecked.linked (hchk : ReorgChecked reorg items) (hfits : reorg.AttachedFits) :
    Linked (items.map fst) := by
  have hlen : (items.map fst).length < 9223372036854775808 := by
    have := reorg.attached.property
    rw [hchk.attached, length_map] at this
    rw [length_map]
    exact this
  have hproper := hchk.attachedFits_iff.mp hfits
  have hchain : (items.map fst).IsChain WrapFollows := IsChain.tail hchk.chain
  cases hrefs : items.map fst with
  | nil => exact IsChain.nil
  | cons first rest =>
    rw [hrefs] at hchain hlen hproper
    exact linked_of_le hchain (Nat.lt_of_succ_lt hlen) (hproper _ rfl)

omit [ChainBundle B H] in
/-- The heights above the ancestor as the interval the source cuts. -/
theorem Reorg.above_iff_removes (hmax : reorg.ancestor.number ≠ maxUint64) (n : Uint64) :
    reorg.Above n ↔ reorg.Removes n := by
  have hlt : reorg.ancestor.number < n ↔ reorg.ancestor.number + 1 ≤ n :=
    (next_le_iff hmax).symm
  constructor
  · rintro ⟨top, htop, hlo, hhi⟩
    exact ⟨top, htop, hlt.mp hlo, hhi⟩
  · rintro ⟨top, htop, hlo, hhi⟩
    exact ⟨top, htop, hlt.mpr hlo, hhi⟩

/-- Detached heights that fit are the heights above the ancestor. -/
theorem ReorgChecked.holds_iff_above (hchk : ReorgChecked reorg items)
    (hfits : reorg.DetachedFits) (n : Uint64) :
    HoldsHeight reorg.detached.val n ↔ reorg.Above n := by
  cases hd : reorg.detached.val.head? with
  | none =>
    have hnil : reorg.detached.val = [] := head?_eq_none_iff.mp hd
    constructor
    · rintro ⟨r, hr, -⟩
      rw [hnil] at hr
      cases hr
    · rintro ⟨top, htop, -⟩
      rw [hd] at htop
      cases htop
  | some top =>
    obtain ⟨-, hheights⟩ := countdown_heights reorg.detached.property hchk.heights hd
      (hfits top hd).le
    refine (hheights n).trans ?_
    constructor
    · intro hn
      exact ⟨top, hd, hn⟩
    · rintro ⟨top', htop', hn⟩
      rw [hd] at htop'
      cases htop'
      exact hn

/-- The containment scan finds a range that reaches over two heights. -/
private theorem contains_ends_iff (hnorm : Normalized ranges) {start stop : Uint64} :
    IntervalSet.contains ranges ⟨start, stop⟩ = true
      ↔ ∃ range ∈ ranges, range.start ≤ start ∧ stop ≤ range.stop :=
  contains_iff hnorm

omit [ChainBundle B H] in
/-- The first half of the computation succeeds iff the ancestor is not the last height
    and one range reaches from the block after it to the old tip. -/
theorem coverageBelowReorg_total (hnorm : Normalized ranges) :
    (∃ kept, coverageBelowReorg ranges reorg = .ok kept) ↔
      ∀ top ∈ reorg.detached.val.head?, reorg.ancestor.number ≠ maxUint64
        ∧ ∃ range ∈ ranges, range.start ≤ reorg.ancestor.number + 1
          ∧ top.number ≤ range.stop := by
  cases hd : reorg.detached.val with
  | nil =>
    refine ⟨fun _ top htop => (by cases htop), fun _ => ⟨ranges, ?_⟩⟩
    rw [coverageBelowReorg, hd]
  | cons top rest =>
    rw [coverageBelowReorg, hd, head?_cons]
    simp only [mem_some_iff, forall_eq']
    rw [← contains_ends_iff hnorm]
    constructor
    · rintro ⟨kept, hkept⟩
      obtain ⟨_, hmax, hkept⟩ := bind_eq_ok.mp hkept
      obtain ⟨_, hcovered, -⟩ := bind_eq_ok.mp hkept
      rw [failIf_eq_ok] at hmax hcovered
      exact ⟨hmax, (Bool.not_eq_false _).mp hcovered⟩
    · rintro ⟨hmax, hcontains⟩
      refine ⟨_, bind_eq_ok.mpr ⟨(), failIf_eq_ok.mpr hmax,
        bind_eq_ok.mpr ⟨(), failIf_eq_ok.mpr ?_, rfl⟩⟩⟩
      exact (Bool.not_eq_false _).mpr hcontains

omit [ChainBundle B H] in
/-- What the first half keeps of proper ranges is proper. -/
theorem coverageBelowReorg_proper {kept : List BlockRange} (hproper : ∀ r ∈ ranges, r.Proper)
    (h : coverageBelowReorg ranges reorg = .ok kept) : ∀ r ∈ kept, r.Proper := by
  cases hd : reorg.detached.val with
  | nil =>
    rw [coverageBelowReorg, hd] at h
    cases h
    exact hproper
  | cons top rest =>
    rw [coverageBelowReorg, hd] at h
    obtain ⟨_, -, h⟩ := bind_eq_ok.mp h
    obtain ⟨_, -, h⟩ := bind_eq_ok.mp h
    have hkept := pure_eq_ok.mp h
    subst hkept
    rw [trimRange_eq_cut]
    exact proper_flatMap_cut sub_one_covBy covBy_add_one _ _ hproper

/-- **When the computation succeeds**: its first half does, and the attached heights
    fit. -/
theorem coverageRangesAfterReorg_total (hnorm : Normalized ranges)
    (hchk : ReorgChecked reorg items) :
    (∃ next, coverageRangesAfterReorg ranges reorg = .ok next) ↔
      (∃ kept, coverageBelowReorg ranges reorg = .ok kept) ∧ reorg.AttachedFits := by
  rw [hchk.attachedFits_iff]
  constructor
  · rintro ⟨next, h⟩
    obtain ⟨kept, hkept, h'⟩ := bind_eq_ok.mp h
    obtain ⟨-, -, -, added, hadded, hproper, -⟩ := coverageRangesAfterReorg_ok h
    rw [hchk.attachedRange_eq] at hadded
    rw [ok.inj hadded]
    exact ⟨⟨kept, hkept⟩, hproper⟩
  · rintro ⟨⟨kept, hkept⟩, hfits⟩
    have hproper : ∀ r ∈ kept ++ (spanOf (items.map fst)).toList, r.Proper := by
      intro r hr
      rcases mem_append.mp hr with hr | hr
      · exact coverageBelowReorg_proper hnorm.proper hkept r hr
      · exact hfits r (mem_toList.mp hr)
    obtain ⟨next, hnext⟩ := normalizeCoverageRanges_total hproper
    exact ⟨next,
      bind_eq_ok.mpr ⟨kept, hkept, bind_eq_ok.mpr ⟨_, hchk.attachedRange_eq, hnext⟩⟩⟩

omit [ChainBundle B H] in
/-- Where the detached heights fit, a range reaches over them iff they are covered. -/
theorem Reorg.DetachedFits.reached_iff (hfits : reorg.DetachedFits) (hnorm : Normalized ranges) :
    (∀ top ∈ reorg.detached.val.head?, reorg.ancestor.number ≠ maxUint64
        ∧ ∃ range ∈ ranges, range.start ≤ reorg.ancestor.number + 1
          ∧ top.number ≤ range.stop)
      ↔ ∀ n, reorg.Above n → Covers ranges n := by
  constructor
  · rintro h n ⟨top, htop, hlo, hhi⟩
    obtain ⟨hmax, range, hrange, hstart, hstop⟩ := h top htop
    exact ⟨range, hrange, hstart.trans ((next_le_iff hmax).mpr hlo), hhi.trans hstop⟩
  · intro h top htop
    have hmax : reorg.ancestor.number ≠ maxUint64 := by
      intro hmax
      have := hfits top htop
      rw [hmax] at this
      exact absurd this (not_lt.mpr (le_maxUint64 _))
    refine ⟨hmax, ?_⟩
    rw [← contains_ends_iff hnorm]
    refine contains_of_covers hnorm ((next_le_iff hmax).mpr (hfits top htop)) fun n hn => ?_
    exact h n ⟨top, htop, (next_le_iff hmax).mp hn.1, hn.2⟩

/-- The covered heights after a reorg, by what it takes out and its attached blocks. -/
theorem ReorgChecked.covers_next (hchk : ReorgChecked reorg items) {next : List BlockRange}
    (hfits : reorg.AttachedFits) (h : coverageRangesAfterReorg ranges reorg = .ok next) :
    Normalized next ∧ ∀ n, Covers next n
      ↔ (Covers ranges n ∧ ¬ reorg.Removes n) ∨ HoldsHeight (items.map fst) n := by
  obtain ⟨hnext, -, -, added, hadded, -, hcov⟩ := coverageRangesAfterReorg_ok h
  rw [hchk.attachedRange_eq] at hadded
  refine ⟨hnext, fun n => ?_⟩
  rw [hcov n, ← ok.inj hadded, (hchk.linked hfits).spanOf_has n]
  exact Iff.rfl

omit [ChainBundle B H] in
/-- Where the detached heights wrap, the cut takes nothing out. -/
theorem Reorg.not_removes {top : BlockRef H} (htop : top ∈ reorg.detached.val.head?)
    (hmax : reorg.ancestor.number ≠ maxUint64) (hle : top.number ≤ reorg.ancestor.number)
    (n : Uint64) : ¬ reorg.Removes n := by
  rintro ⟨top', htop', hlo, hhi⟩
  rw [mem_def.mp htop] at htop'
  cases htop'
  exact absurd (lt_of_lt_of_le ((next_le_iff hmax).mp hlo) hhi) (not_lt.mpr hle)

/-- Where all heights fit, the promise is kept. -/
theorem ReorgChecked.coverageExact (hchk : ReorgChecked reorg items) (hnorm : Normalized ranges)
    (hdetached : reorg.DetachedFits) (hattached : reorg.AttachedFits) :
    reorg.CoverageExact ranges (items.map fst) where
  fails_iff := by
    rw [error_or_ok, coverageRangesAfterReorg_total hnorm hchk, coverageBelowReorg_total hnorm,
      hdetached.reached_iff hnorm]
    constructor
    · intro h
      refine .inl ?_
      by_contra hnone
      refine h ⟨fun n hn => ?_, hattached⟩
      by_contra hno
      exact hnone ⟨n, hn, hno⟩
    · rintro (⟨n, hn, hno⟩ | ⟨hmax, hne⟩) ⟨hcov, -⟩
      · exact hno (hcov n hn)
      · obtain ⟨top, rest, hrest⟩ := exists_cons_of_ne_nil hne
        have hlt := hdetached top (by rw [hrest]; rfl)
        rw [hmax] at hlt
        exact absurd hlt (not_lt.mpr (le_maxUint64 _))
  exact_of_ok := by
    intro next h
    obtain ⟨hnext, hcov⟩ := hchk.covers_next hattached h
    refine ⟨hnext, fun n => ?_⟩
    have hremoves : reorg.Removes n ↔ HoldsHeight reorg.detached.val n := by
      rw [hchk.holds_iff_above hdetached n]
      by_cases hne : reorg.detached.val = []
      · constructor
        · rintro ⟨top, htop, -⟩
          rw [hne] at htop
          cases htop
        · rintro ⟨top, htop, -⟩
          rw [hne] at htop
          cases htop
      · exact (Reorg.above_iff_removes ((coverageRangesAfterReorg_ok h).2.1 hne) n).symm
    rw [hcov n, hremoves]

/-- The promise where the computation fails: there is a reason for it. -/
theorem Reorg.CoverageExact.of_fails {attached : List (BlockRef H)}
    (hfails : ¬ ∃ next, coverageRangesAfterReorg ranges reorg = .ok next)
    (hreason : (∃ n, reorg.Above n ∧ ¬ Covers ranges n)
      ∨ (reorg.ancestor.number = maxUint64 ∧ reorg.detached.val ≠ [])) :
    reorg.CoverageExact ranges attached :=
  ⟨iff_of_true ((error_or_ok _).mpr hfails) hreason, fun next h => absurd ⟨next, h⟩ hfails⟩

/-- Under the promise a reorg without a reason to fail succeeds. -/
theorem Reorg.CoverageExact.succeeds {attached : List (BlockRef H)}
    (h : reorg.CoverageExact ranges attached)
    (hcovered : ¬ ∃ n, reorg.Above n ∧ ¬ Covers ranges n)
    (hover : ¬ (reorg.ancestor.number = maxUint64 ∧ reorg.detached.val ≠ [])) :
    ∃ next, coverageRangesAfterReorg ranges reorg = .ok next := by
  have hok : ¬ ∃ err, coverageRangesAfterReorg ranges reorg = .error err := by
    rw [h.fails_iff]
    exact not_or.mpr ⟨hcovered, hover⟩
  rwa [error_or_ok, not_not] at hok

/-- Where the detached heights fit, the promise is kept iff one of them is not covered or
    the attached ones fit too. -/
theorem ReorgChecked.coverageExact_iff_of_fits (hchk : ReorgChecked reorg items)
    (hnorm : Normalized ranges) (hdetached : reorg.DetachedFits)
    (hover : ¬ (reorg.ancestor.number = maxUint64 ∧ reorg.detached.val ≠ [])) :
    reorg.CoverageExact ranges (items.map fst) ↔
      (∃ n, reorg.Above n ∧ ¬ Covers ranges n) ∨ reorg.AttachedFits := by
  have htotal := coverageRangesAfterReorg_total hnorm hchk
  rw [coverageBelowReorg_total hnorm, hdetached.reached_iff hnorm] at htotal
  by_cases huncovered : ∃ n, reorg.Above n ∧ ¬ Covers ranges n
  · refine iff_of_true (.of_fails ?_ (.inl huncovered)) (.inl huncovered)
    rw [htotal]
    rintro ⟨h, -⟩
    obtain ⟨n, hn, hno⟩ := huncovered
    exact hno (h n hn)
  · rw [or_iff_right huncovered]
    constructor
    · intro h
      exact (htotal.mp (h.succeeds huncovered hover)).2
    · exact hchk.coverageExact hnorm hdetached

/-- Where the detached heights wrap the cut takes nothing out: the promise is kept iff a
    range reaches over the ends of the branch, the attached heights fit, and what is
    detached and covered is attached again. -/
theorem ReorgChecked.coverageExact_iff_of_wraps (hchk : ReorgChecked reorg items)
    (hnorm : Normalized ranges) {top : BlockRef H} (htop : top ∈ reorg.detached.val.head?)
    (hle : top.number ≤ reorg.ancestor.number) (hmax : reorg.ancestor.number ≠ maxUint64) :
    reorg.CoverageExact ranges (items.map fst) ↔
      reorg.AttachedFits
        ∧ (∃ range ∈ ranges, range.start ≤ reorg.ancestor.number + 1
          ∧ top.number ≤ range.stop)
        ∧ ∀ n, Covers ranges n → HoldsHeight reorg.detached.val n →
          HoldsHeight (items.map fst) n := by
  have htotal := coverageRangesAfterReorg_total hnorm hchk
  rw [coverageBelowReorg_total hnorm] at htotal
  -- no height lies between the ancestor and the old tip
  have hnone : ¬ ∃ n, reorg.Above n ∧ ¬ Covers ranges n := by
    rintro ⟨n, ⟨top', htop', hlo, hhi⟩, -⟩
    rw [mem_def.mp htop] at htop'
    cases htop'
    exact absurd (lt_of_lt_of_le hlo hhi) (not_lt.mpr hle)
  have hover : ¬ (reorg.ancestor.number = maxUint64 ∧ reorg.detached.val ≠ []) :=
    fun h => hmax h.1
  have hremoves := Reorg.not_removes htop hmax hle
  constructor
  · intro h
    obtain ⟨next, hnext⟩ := h.succeeds hnone hover
    obtain ⟨hreach, hfits⟩ := htotal.mp ⟨next, hnext⟩
    refine ⟨hfits, (hreach top htop).2, fun n hcovered hheld => ?_⟩
    have hstays := ((hchk.covers_next hfits hnext).2 n).mpr (.inl ⟨hcovered, hremoves n⟩)
    rcases ((h.exact_of_ok next hnext).2 n).mp hstays with ⟨-, hnot⟩ | hattached
    · exact absurd hheld hnot
    · exact hattached
  · rintro ⟨hfits, hreach, hagain⟩
    have hok : ∃ next, coverageRangesAfterReorg ranges reorg = .ok next := by
      refine htotal.mpr ⟨fun other hother => ⟨hmax, ?_⟩, hfits⟩
      cases (mem_def.mp hother).symm.trans (mem_def.mp htop)
      exact hreach
    refine ⟨iff_of_false (fun h => (error_or_ok _).mp h hok) (not_or.mpr ⟨hnone, hover⟩),
      fun next hnext => ?_⟩
    obtain ⟨hnormal, hcov⟩ := hchk.covers_next hfits hnext
    refine ⟨hnormal, fun n => ?_⟩
    rw [hcov n]
    constructor
    · rintro (⟨hcovered, -⟩ | hattached)
      · by_cases hheld : HoldsHeight reorg.detached.val n
        · exact .inr (hagain n hcovered hheld)
        · exact .inl ⟨hcovered, hheld⟩
      · exact .inr hattached
    · rintro (⟨hcovered, -⟩ | hattached)
      · exact .inl ⟨hcovered, hremoves n⟩
      · exact .inr hattached

/-- **A checked reorg keeps the promise on the regular coverages and on no others.** -/
theorem ReorgChecked.coverageExact_iff (hchk : ReorgChecked reorg items)
    (hnorm : Normalized ranges) :
    reorg.CoverageExact ranges (items.map fst) ↔ reorg.Regular ranges (items.map fst) := by
  by_cases hover : reorg.ancestor.number = maxUint64 ∧ reorg.detached.val ≠ []
  · -- the ancestor is the last height: the first half fails
    refine iff_of_true (.of_fails ?_ (.inr hover)) (.inl hover)
    rw [coverageRangesAfterReorg_total hnorm hchk, coverageBelowReorg_total hnorm]
    rintro ⟨h, -⟩
    obtain ⟨top, rest, hrest⟩ := exists_cons_of_ne_nil hover.2
    exact (h top (by rw [hrest]; rfl)).1 hover.1
  rw [Reorg.Regular, or_iff_right hover]
  by_cases hdetached : reorg.DetachedFits
  · rw [hchk.coverageExact_iff_of_fits hnorm hdetached hover]
    constructor
    · intro h
      exact .inl ⟨hdetached, h⟩
    · rintro (⟨-, h⟩ | ⟨hfits, -⟩)
      · exact h
      · exact .inr hfits
  · obtain ⟨top, htop, hle⟩ : ∃ top ∈ reorg.detached.val.head?,
        top.number ≤ reorg.ancestor.number := by
      unfold Reorg.DetachedFits at hdetached
      push Not at hdetached
      exact hdetached
    have hmax : reorg.ancestor.number ≠ maxUint64 :=
      fun h => hover ⟨h, ne_nil_of_mem (mem_of_mem_head? htop)⟩
    rw [hchk.coverageExact_iff_of_wraps hnorm htop hle hmax,
      or_iff_right (fun h => hdetached h.1)]
    constructor
    · rintro ⟨hfits, hreach, hagain⟩
      exact ⟨hfits, ⟨top, htop, hle, hreach⟩, hagain⟩
    · rintro ⟨hfits, ⟨top', htop', -, hreach⟩, hagain⟩
      cases (mem_def.mp htop').symm.trans (mem_def.mp htop)
      exact ⟨hfits, hreach, hagain⟩

end Reorgs

/-! ## Sparse replacements -/

section Replacements

variable {replacement : SparseCanonicalReplacement B H} {items : List (BlockRef H × B)}
  {ranges : List BlockRange}

omit [ChainBundle B H] in
/-- Distinct heights that are all covered can be taken out one by one, and what is
    left of proper ranges is proper. -/
theorem trimHeights_total {detached : List (BlockRef H)} (hproper : ∀ r ∈ ranges, r.Proper)
    (hdistinct : detached.Pairwise (fun p q => q.number < p.number))
    (hcov : ∀ d ∈ detached, Covers ranges d.number) :
    ∃ kept, trimHeights ranges detached = .ok kept ∧ ∀ r ∈ kept, r.Proper := by
  induction detached generalizing ranges with
  | nil => exact ⟨ranges, rfl, hproper⟩
  | cons top rest ih =>
    obtain ⟨hbelow, hrest⟩ := pairwise_cons.mp hdistinct
    have htrimmed : ∀ r ∈ ranges.flatMap (trimHeight top.number), r.Proper := by
      rw [trimHeight_eq_cut]
      exact proper_flatMap_cut sub_one_covBy covBy_add_one _ _ hproper
    obtain ⟨kept, hkept, hkeptproper⟩ := ih htrimmed hrest
      (fun d hd => (covers_trimHeight _ _ _).mpr ⟨hcov d (mem_cons_of_mem _ hd),
        (hbelow d hd).ne⟩)
    refine ⟨kept, ?_, hkeptproper⟩
    rw [trimHeights]
    exact bind_eq_ok.mpr ⟨(), failIf_eq_ok.mpr (not_not.mpr (hcov top mem_cons_self)), hkept⟩

/-- **A validated sparse replacement keeps the promise.** -/
theorem SparseAccepted.coverageExact (hacc : SparseAccepted replacement items)
    (hnorm : Normalized ranges) : replacement.CoverageExact ranges (items.map fst) where
  fails_iff := by
    rw [error_or_ok]
    constructor
    · intro h
      by_contra hnone
      have hcov : ∀ d ∈ replacement.detached.val, Covers ranges d.number := by
        intro d hd
        by_contra hno
        exact hnone ⟨d, hd, hno⟩
      have hdesc : replacement.detached.val.Pairwise (fun p q => q.number < p.number) := by
        have : replacement.detached.val.IsChain (fun p q : BlockRef H => q.number < p.number) :=
          hacc.descends.imp (fun _ _ hd => hd.1)
        exact this.pairwise
      obtain ⟨kept, hkept, hkeptproper⟩ := trimHeights_total hnorm.proper hdesc hcov
      have hproper : ∀ r ∈ kept ++ (spanOf (items.map fst)).toList, r.Proper := by
        intro r hr
        rcases mem_append.mp hr with hr | hr
        · exact hkeptproper r hr
        · exact hacc.linked.spanOf_proper r (mem_toList.mp hr)
      obtain ⟨next, hnext⟩ := normalizeCoverageRanges_total hproper
      exact h ⟨next, bind_eq_ok.mpr ⟨kept, hkept, hnext⟩⟩
    · rintro ⟨d, hd, hno⟩ ⟨next, hnext⟩
      exact hno ((coverageRangesAfterSparseReplacement_ok hnext).2.1 d hd)
  exact_of_ok := by
    intro next h
    obtain ⟨hnext, -, -, hcov⟩ := coverageRangesAfterSparseReplacement_ok h
    refine ⟨hnext, fun n => ?_⟩
    rw [hcov n, hacc.linked.spanOf_has n]
    have hkept : (∀ d ∈ replacement.detached.val, d.number ≠ n)
        ↔ ¬ HoldsHeight replacement.detached.val n := by
      unfold HoldsHeight
      push Not
      exact Iff.rfl
    rw [hkept]
    exact Iff.rfl

end Replacements

/-! ## Both on one transition -/

section Agreement

variable {reorg : Reorg B H} {replacement : SparseCanonicalReplacement B H}
  {items owned : List (BlockRef H × B)}

theorem refs_eq_of_copies {bundles : List B} {owned items : List (BlockRef H × B)}
    (hcopies : Forall₂ (fun b p => cloneBundle b = .ok p.2) bundles owned)
    (howned : ∀ p ∈ owned, Owned p) (hbundles : bundles = items.map snd)
    (hrefs : ∀ p ∈ items, refFromBundle p.2 = .ok p.1) :
    owned.map fst = items.map fst := by
  induction hcopies generalizing items with
  | nil =>
    cases items with
    | nil => rfl
    | cons p items => cases hbundles
  | @cons b q bundles owned hclone _ ih =>
    cases items with
    | nil => cases hbundles
    | cons p items =>
      obtain ⟨hb, hbundles⟩ := cons.inj hbundles
      have hq : q.1 = p.1 := by
        have h1 := (howned q mem_cons_self).1
        rw [refFromBundle_clone hclone, hb, hrefs p mem_cons_self] at h1
        exact (ok.inj h1).symm
      rw [map_cons, map_cons, hq, ih (fun r hr => howned r (mem_cons_of_mem _ hr)) hbundles
          (fun r hr => hrefs r (mem_cons_of_mem _ hr))]

section

variable (hchk : ReorgChecked reorg items) (hacc : SparseAccepted replacement owned)
  (hdetached : reorg.detached.val = replacement.detached.val)
include hchk hacc hdetached

/-- A transition that a sparse replacement can carry out does not detach across the last
    height: its detached branch descends. -/
theorem ReorgChecked.detachedFits_of_sparse (hmax : reorg.ancestor.number ≠ maxUint64) :
    reorg.DetachedFits := by
  intro top htop
  have hne : reorg.detached.val ≠ [] := ne_nil_of_mem (mem_of_mem_head? htop)
  -- the lowest detached block is the one after the ancestor
  have hlowest := hchk.heights (reorg.detached.val.length - 1) (reorg.detached.val.getLast hne)
    (by rw [← getLast?_eq_getElem?, getLast?_eq_some_getLast hne])
  have hone : reorg.detached.val.length - (reorg.detached.val.length - 1) = 1 := by
    have hpos : 0 < reorg.detached.val.length := length_pos_iff.mpr hne
    omega
  rw [hone] at hlowest
  have hle : (reorg.detached.val.getLast hne).number ≤ top.number := by
    have hdesc : reorg.detached.val.Pairwise (fun p q => q.number < p.number) := by
      rw [hdetached]
      have : replacement.detached.val.IsChain (fun p q : BlockRef H => q.number < p.number) :=
        hacc.descends.imp (fun _ _ hd => hd.1)
      exact this.pairwise
    obtain ⟨rest, hrest⟩ : ∃ rest, reorg.detached.val = top :: rest :=
      ⟨_, eq_cons_of_mem_head? htop⟩
    rw [hrest] at hdesc
    have hmem : reorg.detached.val.getLast hne ∈ top :: rest := by
      rw [← hrest]
      exact getLast_mem hne
    rcases mem_cons.mp hmem with heq | hmem
    · rw [heq]
    · exact ((pairwise_cons.mp hdesc).1 _ hmem).le
  rw [hlowest, Fin.le_def] at hle
  rw [Fin.lt_def]
  have hval : (reorg.ancestor.number + uint64 1).val = reorg.ancestor.number.val + 1 :=
    val_add_one hmax
  omega

/-- **On one transition the two functions return one list**, and each of them
    returns it when the other does, unless the ancestor is the last height. -/
theorem coverage_transitions_agree (hattached : reorg.attached.val = replacement.attached.val)
    {ranges : List BlockRange} (hnorm : Normalized ranges) :
    (∀ next other, coverageRangesAfterReorg ranges reorg = .ok next →
        coverageRangesAfterSparseReplacement ranges replacement (owned.map fst) = .ok other →
        next = other)
      ∧ ((reorg.detached.val ≠ [] → reorg.ancestor.number ≠ maxUint64) →
        ((∃ next, coverageRangesAfterReorg ranges reorg = .ok next) ↔
          ∃ other, coverageRangesAfterSparseReplacement ranges replacement (owned.map fst)
            = .ok other)) := by
  have hrefs : owned.map fst = items.map fst :=
    refs_eq_of_copies hacc.copies hacc.owned (by rw [← hattached, hchk.attached]) hchk.refs
  have hsparse := hacc.coverageExact hnorm
  have hfits : (reorg.detached.val ≠ [] → reorg.ancestor.number ≠ maxUint64) →
      reorg.DetachedFits := by
    intro hmax top htop
    exact hchk.detachedFits_of_sparse hacc hdetached
      (hmax (ne_nil_of_mem (mem_of_mem_head? htop))) top htop
  -- the replacement was validated as a segment, which does not wrap
  have hattachedFits : reorg.AttachedFits := by
    rw [hchk.attachedFits_iff, ← hrefs]
    exact hacc.linked.spanOf_proper
  refine ⟨?_, ?_⟩
  · intro next other hnext hother
    have hreorg := hchk.coverageExact hnorm (hfits (coverageRangesAfterReorg_ok hnext).2.1)
      hattachedFits
    -- both lists are the normal form of one set of heights
    have h1 := hreorg.exact_of_ok next hnext
    have h2 := hsparse.exact_of_ok other hother
    rw [hdetached, ← hrefs] at h1
    exact h1.unique h2
  · intro hmax
    have h1 := (hchk.coverageExact hnorm (hfits hmax) hattachedFits).fails_iff
    have h2 := hsparse.fails_iff
    rw [error_or_ok] at h1 h2
    refine not_iff_not.mp (h1.trans (Iff.trans ?_ h2.symm))
    constructor
    · rintro (⟨n, hn, hno⟩ | ⟨heq, hne⟩)
      · obtain ⟨d, hd, rfl⟩ := (hchk.holds_iff_above (hfits hmax) n).mpr hn
        exact ⟨d, by rw [← hdetached]; exact hd, hno⟩
      · exact absurd heq (hmax hne)
    · rintro ⟨d, hd, hno⟩
      rw [← hdetached] at hd
      exact .inl ⟨d.number, (hchk.holds_iff_above (hfits hmax) _).mp ⟨d, hd, rfl⟩, hno⟩

end

end Agreement

/-- **Coverage after a transition.**  On a coverage in normal form a validated reorg
    computes what it promises iff the coverage is regular for it, a validated sparse
    replacement always does, and on a transition that both can carry out they return one
    list. -/
theorem coverage_after_transition_iff [DecidableEq H] :
    (∀ (reorg : Reorg B H) (items : List (BlockRef H × B)), validateReorg reorg = .ok items →
        ∀ ranges, Normalized ranges →
          (reorg.CoverageExact ranges (items.map fst) ↔ reorg.Regular ranges (items.map fst)))
      ∧ (∀ (replacement : SparseCanonicalReplacement B H) (owned : List (BlockRef H × B)),
        validateSparseCanonicalReplacement replacement = .ok owned →
          ∀ ranges, Normalized ranges → replacement.CoverageExact ranges (owned.map fst))
      ∧ ∀ (reorg : Reorg B H) (replacement : SparseCanonicalReplacement B H)
          (items owned : List (BlockRef H × B)),
        validateReorg reorg = .ok items →
        validateSparseCanonicalReplacement replacement = .ok owned →
        reorg.detached.val = replacement.detached.val →
        reorg.attached.val = replacement.attached.val →
        ∀ ranges, Normalized ranges →
          (∀ next other, coverageRangesAfterReorg ranges reorg = .ok next →
            coverageRangesAfterSparseReplacement ranges replacement (owned.map fst)
              = .ok other → next = other)
          ∧ ((reorg.detached.val ≠ [] → reorg.ancestor.number ≠ maxUint64) →
            ((∃ next, coverageRangesAfterReorg ranges reorg = .ok next) ↔
              ∃ other, coverageRangesAfterSparseReplacement ranges replacement
                (owned.map fst) = .ok other)) := by
  refine ⟨fun reorg items h ranges hnorm => (validateReorg_ok h).coverageExact_iff hnorm,
    fun replacement owned h ranges hnorm =>
      (validateSparseCanonicalReplacement_ok h).coverageExact hnorm, ?_⟩
  intro reorg replacement items owned hreorg hsparse hdetached hattached ranges hnorm
  exact coverage_transitions_agree (validateReorg_ok hreorg)
    (validateSparseCanonicalReplacement_ok hsparse) hdetached hattached hnorm

end Transitions

/-! ## A fork as a reorg and as a replacement -/

theorem forkDetached_short : [block2.ref, block1.ref].length < 9223372036854775808 := by decide

theorem forkAttached_short : [fork1].length < 9223372036854775808 := by decide

/-- Blocks 2 and 1 give way to a sibling of block 1. -/
def forkReorg : Reorg TermBundle TermHash where
  ancestor := block0.ref
  detached := ⟨[block2.ref, block1.ref], forkDetached_short⟩
  attached := ⟨[fork1], forkAttached_short⟩
  checkpoint := newCoreCheckpoint fork1.ref
  reason := "fork"

/-- The same transition as the replacement of the range `[1, 2]`. -/
def forkReplacement : SparseCanonicalReplacement TermBundle TermHash where
  range := ⟨1, 2⟩
  ancestor := none
  detached := ⟨[block2.ref, block1.ref], forkDetached_short⟩
  attached := ⟨[fork1], forkAttached_short⟩
  reason := "fork"

/-- The fork is computed as promised on the coverage `[0, 2]`, by both functions. -/
theorem coverage_after_transition_fork :
    forkReorg.CoverageExact [⟨0, 2⟩] [fork1.ref]
      ∧ forkReplacement.CoverageExact [⟨0, 2⟩] [fork1.ref]
      ∧ ∃ next other, coverageRangesAfterReorg [⟨0, 2⟩] forkReorg = .ok next
        ∧ coverageRangesAfterSparseReplacement [⟨0, 2⟩] forkReplacement [fork1.ref]
          = .ok other
        ∧ next = other := by
  obtain ⟨hreorg, hsparse, hagree⟩ :=
    coverage_after_transition_iff (B := TermBundle) (H := TermHash)
  have hvalid : validateReorg forkReorg = .ok [(fork1.ref, fork1)] := by decide +kernel
  have hvalid' : validateSparseCanonicalReplacement forkReplacement = .ok [(fork1.ref, fork1)] := by
    decide +kernel
  have hregular : forkReorg.Regular [⟨0, 2⟩] [fork1.ref] := by
    refine .inr (.inl ⟨fun top htop => ?_, .inr (.inr (by decide))⟩)
    cases htop
    decide
  have hnorm : Normalized [(⟨0, 2⟩ : BlockRange)] := by
    refine ⟨fun s hs => ?_, pairwise_singleton _ _⟩
    rw [mem_singleton.mp hs]
    exact Fin.zero_le _
  have hnext : coverageRangesAfterReorg [⟨0, 2⟩] forkReorg
      = .ok [⟨0, 1⟩] := by decide +kernel
  have hother : coverageRangesAfterSparseReplacement [⟨0, 2⟩] forkReplacement [fork1.ref]
      = .ok [⟨0, 1⟩] := by decide +kernel
  exact ⟨(hreorg _ _ hvalid _ hnorm).mpr hregular, hsparse _ _ hvalid' _ hnorm, _, _, hnext,
    hother, (hagree _ _ _ _ hvalid hvalid' rfl rfl _ hnorm).1 _ _ hnext hother⟩

/-! ## A branch that wraps -/

/-- The block below the last height, a child of it at the last height, and the
    child of that at height 0. -/
def nextToLast : TermBundle := ⟨18446744073709551614, .genesis, 0⟩

/-- A block at the last height. -/
def lastChild : TermBundle := ⟨maxUint64, nextToLast.hash, 0⟩

/-- The block after it, whose height is 0 again. -/
def wrappedChild : TermBundle := ⟨0, lastChild.hash, 0⟩

/-- A reorg that attaches across the last height. -/
def wrappingReorg : Reorg TermBundle TermHash where
  ancestor := nextToLast.ref
  detached := emptySlice
  attached := ⟨[lastChild, wrappedChild], by decide⟩
  checkpoint := newCoreCheckpoint wrappedChild.ref
  reason := "wrap"

/-- It passes the validation and detaches nothing, and the computation of its coverage
    fails. -/
theorem wrapping_reorg_fails : validateReorg wrappingReorg
        = .ok [(lastChild.ref, lastChild), (wrappedChild.ref, wrappedChild)]
      ∧ coverageRangesAfterReorg [] wrappingReorg
        = .error (.plain "coverage range ends before it starts")
      ∧ ¬ wrappingReorg.CoverageExact [] [lastChild.ref, wrappedChild.ref] := by
  have herr : coverageRangesAfterReorg [] wrappingReorg
      = .error (.plain "coverage range ends before it starts") := by decide +kernel
  refine ⟨by decide +kernel, herr, fun h => ?_⟩
  rcases h.fails_iff.mp ⟨_, herr⟩ with ⟨n, ⟨top, htop, -⟩, -⟩ | hover
  · cases htop
  · exact hover.2 rfl

end Store
