import Etherview.StoreTypes

/-! # Coverage ranges

    `internal/store/coverage.go`: the interval arithmetic on covered heights.

    Every function that returns a coverage list is characterised by the set of
    heights the list covers and by the list being in normal form
    (`normalizeCoverageRanges_ok`, `coverageRangesAfterReorg_ok`,
    `coverageRangesAfterSparseReplacement_ok`). -/

namespace Store

open IntervalSet Transact Option Fin

variable {B H : Type}

/-! ## Heights as an order -/

/-- The test of `normalizeCoverageRanges` for touching ranges. -/
def adjacent (last current : Uint64) : Bool :=
  decide (last ≠ maxUint64) && decide (current = last + 1)

/-- Touching is the covering relation of the heights. -/
theorem adjacent_iff_covBy (a b : Uint64) : adjacent a b = true ↔ a ⋖ b := by
  unfold adjacent
  rw [Bool.and_eq_true, decide_eq_true_eq, decide_eq_true_eq]
  constructor
  · rintro ⟨hmax, rfl⟩
    have hv := val_add_one hmax
    refine ⟨?_, ?_⟩
    · rw [lt_def]
      omega
    · intro c hac hcb
      rw [lt_def] at hac hcb
      omega
  · rintro ⟨hlt, hgap⟩
    have hmax : a ≠ maxUint64 := by
      intro h
      rw [eq_maxUint64_iff] at h
      rw [lt_def] at hlt
      have := b.isLt
      omega
    have hv := val_add_one hmax
    refine ⟨hmax, ?_⟩
    by_contra hne
    refine hgap (c := a + 1) ?_ ?_
    · rw [lt_def]
      omega
    · rw [lt_def] at hlt ⊢
      have : b.val ≠ (a + 1).val := fun h => hne (Fin.ext h)
      omega

/-- The predecessor used when a range is cut on the left. -/
theorem sub_one_covBy (a b : Uint64) (h : a < b) : b - 1 ⋖ b := by
  have hb : b ≠ 0 := by
    rintro rfl
    exact absurd h (by simp)
  have h0 : b.val ≠ 0 := fun h0 => hb (Fin.ext h0)
  have hne : b - 1 ≠ maxUint64 := by
    intro hmax
    rw [eq_maxUint64_iff] at hmax
    omega
  rw [← adjacent_iff_covBy]
  unfold adjacent
  rw [Bool.and_eq_true, decide_eq_true_eq, decide_eq_true_eq]
  exact ⟨hne, Fin.ext (by omega)⟩

/-- The successor used when a range is cut on the right. -/
theorem covBy_add_one (a b : Uint64) (h : a < b) : a ⋖ a + 1 := by
  rw [← adjacent_iff_covBy]
  unfold adjacent
  rw [Bool.and_eq_true, decide_eq_true_eq, decide_eq_true_eq]
  refine ⟨?_, rfl⟩
  intro hmax
  rw [eq_maxUint64_iff] at hmax
  rw [lt_def] at h
  omega

/-! ## Normalization -/

/-- The sort order of `normalizeCoverageRanges`. -/
def rangeLE (left right : BlockRange) : Prop :=
  left.start < right.start ∨ left.start = right.start ∧ left.stop ≤ right.stop

instance : DecidableRel rangeLE := fun _ _ => inferInstanceAs (Decidable (_ ∨ _))

instance : Std.Total rangeLE where
  total a b := by
    rcases lt_trichotomy a.start b.start with h | h | h
    · exact Or.inl (Or.inl h)
    · rcases le_total a.stop b.stop with hs | hs
      · exact Or.inl (Or.inr ⟨h, hs⟩)
      · exact Or.inr (Or.inr ⟨h.symm, hs⟩)
    · exact Or.inr (Or.inl h)

instance : IsTrans BlockRange rangeLE where
  trans a b c := by
    rintro (h1 | ⟨h1, h1'⟩) (h2 | ⟨h2, h2'⟩)
    · exact Or.inl (h1.trans h2)
    · exact Or.inl (h2 ▸ h1)
    · exact Or.inl (h1 ▸ h2)
    · exact Or.inr ⟨h1.trans h2, h1'.trans h2'⟩

/-- `normalizeCoverageRanges`; the merge of an empty list is empty. -/
def normalizeCoverageRanges (ranges : List BlockRange) : Except StoreError (List BlockRange) := do
  checkAll (fun blockRange => failIf (blockRange.stop < blockRange.start)
    (.plain "coverage range ends before it starts")) ranges
  return merge adjacent (ranges.insertionSort rangeLE)

/-- What normalization accepts and returns: proper ranges, the same heights, in
    normal form. -/
theorem normalizeCoverageRanges_ok {ranges next : List BlockRange}
    (h : normalizeCoverageRanges ranges = .ok next) :
    (∀ r ∈ ranges, r.Proper) ∧ Normalized next ∧ ∀ n, Covers next n
      ↔ Covers ranges n := by
  obtain ⟨_, hcheck, hnext⟩ := bind_eq_ok.mp h
  have hproper : ∀ r ∈ ranges, r.Proper := by
    intro r hr
    have := checkAll_eq_ok.mp hcheck r hr
    rw [failIf_eq_ok] at this
    exact not_lt.mp this
  have hsorted : (ranges.insertionSort rangeLE).Pairwise (fun s t => s.start ≤ t.start) := by
    refine (List.pairwise_insertionSort rangeLE ranges).imp ?_
    rintro s t (hlt | ⟨heq, -⟩)
    · exact hlt.le
    · exact heq.le
  have hnext := pure_eq_ok.mp hnext
  subst hnext
  refine ⟨hproper, ?_, ?_⟩
  · refine normalized_merge adjacent_iff_covBy _ ?_ hsorted
    intro s hs
    exact hproper s ((List.perm_insertionSort rangeLE ranges).mem_iff.mp hs)
  · intro n
    rw [covers_merge adjacent_iff_covBy _ hsorted n]
    exact covers_perm (List.perm_insertionSort rangeLE ranges) n

variable {ranges : List BlockRange}

/-- Normalization fails only on an improper range. -/
theorem normalizeCoverageRanges_total
    (h : ∀ r ∈ ranges, r.Proper) : ∃ next, normalizeCoverageRanges ranges = .ok next := by
  refine ⟨_, bind_eq_ok.mpr ⟨(), checkAll_eq_ok.mpr ?_, rfl⟩⟩
  intro r hr
  rw [failIf_eq_ok]
  exact not_lt.mpr (h r hr)

/-- A list in normal form is its own normal form. -/
theorem normalizeCoverageRanges_of_normalized
    (h : Normalized ranges) : normalizeCoverageRanges ranges = .ok ranges := by
  obtain ⟨next, hnext⟩ := normalizeCoverageRanges_total h.proper
  have hsorted : ranges.Pairwise rangeLE := by
    refine h.apart.imp_of_mem ?_
    intro s t hs _ hap
    exact .inl (lt_of_le_of_lt (h.proper s hs) hap.1)
  obtain ⟨_, -, heq⟩ := bind_eq_ok.mp hnext
  rw [hsorted.insertionSort_eq, merge_of_normalized adjacent_iff_covBy _ h] at heq
  rw [hnext, ← pure_eq_ok.mp heq]

/-- The stored ranges are in normal form. -/
def validateNormalizedCoverageRanges (ranges : List BlockRange) : Except StoreError Unit := do
  let normalized ← normalizeCoverageRanges ranges
  failIf (normalized.length ≠ ranges.length)
    (.plain "stored coverage ranges overlap or are adjacent")
  failIf (normalized ≠ ranges) (.plain "stored coverage ranges are not normalized")

/-- The check of the stored ranges accepts exactly the normal forms. -/
theorem validateNormalizedCoverageRanges_eq_ok {u : Unit} :
    validateNormalizedCoverageRanges ranges = .ok u ↔ Normalized ranges := by
  constructor
  · intro h
    obtain ⟨next, hnext, h⟩ := bind_eq_ok.mp h
    obtain ⟨_, -, h⟩ := bind_eq_ok.mp h
    rw [failIf_eq_ok, not_not] at h
    rw [← h]
    exact (normalizeCoverageRanges_ok hnext).2.1
  · intro h
    refine bind_eq_ok.mpr ⟨ranges, normalizeCoverageRanges_of_normalized h, ?_⟩
    refine bind_eq_ok.mpr ⟨(), ?_, ?_⟩
    · rw [failIf_eq_ok]
      exact fun h => h rfl
    · rw [failIf_eq_ok]
      exact fun h => h rfl

/-! ## Ranges of a reference list -/

/-- The loop of `coverageRangesFromRefs` over height-ordered references; `ranges`
    holds the ranges found so far, the newest first. -/
def coverageRangesFromRefsLoop [DecidableEq H] (configuredStart : Uint64) :
    Option (BlockRef H) → List BlockRange → List (BlockRef H) →
      Except StoreError (List BlockRange)
  | _, ranges, [] => .ok ranges.reverse
  | previous, ranges, reference :: rest => do
      if reference.number < configuredStart then
        coverageRangesFromRefsLoop configuredStart previous ranges rest
      else
        match previous, ranges with
        | some prev, top :: lower => do
            failIf (reference.number = prev.number)
              (.conflict s!"multiple canonical hashes at height {reference.number.val}")
            -- only a child of the block before it extends the range
            if prev.number ≠ maxUint64 ∧ reference.number = prev.number + 1 ∧
                reference.parentHash = prev.hash then
              coverageRangesFromRefsLoop configuredStart (some reference)
                ({ top with stop := reference.number } :: lower) rest
            else
              coverageRangesFromRefsLoop configuredStart (some reference)
                (⟨reference.number, reference.number⟩ :: top :: lower) rest
        | _, _ =>
          coverageRangesFromRefsLoop configuredStart (some reference)
            (⟨reference.number, reference.number⟩ :: ranges) rest

/-- The ranges of the canonical heights from the configured start on. -/
def coverageRangesFromRefs [DecidableEq H] (references : List (BlockRef H))
    (configuredStart : Uint64) : Except StoreError (List BlockRange) :=
  coverageRangesFromRefsLoop configuredStart none []
    (references.insertionSort fun left right => left.number ≤ right.number)

/-! ## Scans of the coverage list -/

/-- Two ranges share a height. -/
def rangesOverlap (left right : BlockRange) : Bool := overlap left right

/-- One range of the coverage contains the target. -/
def rangeCovered (ranges : List BlockRange) (target : BlockRange) : Bool :=
  contains ranges target

/-- One range of the coverage meets the target. -/
def rangeIntersectsCoverage (ranges : List BlockRange) (target : BlockRange) : Bool :=
  meets ranges target

/-- Lists that cover the same heights have one normal form. -/
theorem normalizeCoverageRanges_congr {ranges ranges' : List BlockRange}
    (h : ∀ r ∈ ranges, r.Proper) (h' : ∀ r ∈ ranges', r.Proper)
    (hcov : ∀ n, Covers ranges n ↔ Covers ranges' n) :
    normalizeCoverageRanges ranges = normalizeCoverageRanges ranges' := by
  obtain ⟨next, hnext⟩ := normalizeCoverageRanges_total h
  obtain ⟨next', hnext'⟩ := normalizeCoverageRanges_total h'
  obtain ⟨-, hnorm, hsame⟩ := normalizeCoverageRanges_ok hnext
  obtain ⟨-, hnorm', hsame'⟩ := normalizeCoverageRanges_ok hnext'
  rw [hnext, hnext', hnorm.eq_of_covers hnorm' fun n => by rw [hsame, hcov, hsame']]

/-- **The normal form of coverage, and the scans of it.** -/
theorem coverage_normal_form :
    (∀ ranges : List BlockRange, (∀ r ∈ ranges, r.start ≤ r.stop) →
      ∃ next, normalizeCoverageRanges ranges = .ok next ∧ Normalized next ∧
        (∀ n, Covers next n ↔ Covers ranges n) ∧ normalizeCoverageRanges next = .ok next ∧
        ∀ other, Normalized other → (∀ n, Covers other n ↔ Covers ranges n) →
          other = next) ∧
    (∀ ranges ranges' : List BlockRange, (∀ r ∈ ranges, r.start ≤ r.stop) →
      (∀ r ∈ ranges', r.start ≤ r.stop) →
      (∀ n, Covers ranges n ↔ Covers ranges' n) ∨ ranges.Perm ranges' →
      normalizeCoverageRanges ranges = normalizeCoverageRanges ranges') ∧
    ∀ (ranges : List BlockRange) (target : BlockRange), Normalized ranges →
      target.start ≤ target.stop →
      (rangeCovered ranges target = true ↔ ∀ n, target.Has n → Covers ranges n) ∧
      (rangeIntersectsCoverage ranges target = true ↔ ∃ n, target.Has n
        ∧ Covers ranges n) := by
  refine ⟨fun ranges h => ?_, fun ranges ranges' h h' hsame => ?_,
    fun ranges target hnorm ht => ?_⟩
  · obtain ⟨next, hnext⟩ := normalizeCoverageRanges_total h
    obtain ⟨-, hnorm, hcov⟩ := normalizeCoverageRanges_ok hnext
    refine ⟨next, hnext, hnorm, hcov, normalizeCoverageRanges_of_normalized hnorm, ?_⟩
    intro other hother hsame
    exact hother.eq_of_covers hnorm fun n => (hsame n).trans (hcov n).symm
  · refine normalizeCoverageRanges_congr h h' ?_
    rcases hsame with hsame | hperm
    · exact hsame
    · exact covers_perm hperm
  · constructor
    · exact ⟨fun h n hn => covers_of_contains h hn, contains_of_covers hnorm ht⟩
    · refine ⟨covers_of_meets hnorm.proper ht, fun ⟨n, hn, hcov⟩ => ?_⟩
      by_contra hno
      exact not_covers_of_not_meets hnorm (Bool.eq_false_iff.mpr hno) hn hcov

theorem coverage_normal_form_max :
    rangeCovered [⟨2, 3⟩, ⟨maxUint64, maxUint64⟩] ⟨2, 3⟩ = true ↔
    ∀ n, Span.Has (⟨2, 3⟩ : BlockRange) n →
      Covers [⟨2, 3⟩, ⟨maxUint64, maxUint64⟩] n :=
  (coverage_normal_form.2.2 _ _
    (validateNormalizedCoverageRanges_eq_ok (u := ()).mp (by decide +kernel)) (by decide)).1

/-- The target is the highest range, and not the one from the configured start. -/
def validateHighestDisconnectedRange (ranges : List BlockRange) (configuredStart : Uint64)
    (target : BlockRange) : Except StoreError Unit := do
  failIf (ranges.getLast? ≠ some target)
    (.conflict "replacement target is not the highest coverage range")
  failIf (target.start = configuredStart)
    (.conflict "highest coverage range is contiguous from configured start")
  match ranges.dropLast.getLast? with
  | none => .ok ()
  | some previous =>
    failIf (previous.stop = maxUint64 ∨ target.start ≤ previous.stop + 1)
      (.conflict "highest coverage range is not disconnected")

theorem validateHighestDisconnectedRange_ok {start : Uint64}
    {target : BlockRange} (h : validateHighestDisconnectedRange ranges start target = .ok ()) :
    ranges.getLast? = some target ∧ target.start ≠ start := by
  obtain ⟨_, h1, h⟩ := bind_eq_ok.mp h
  obtain ⟨_, h2, -⟩ := bind_eq_ok.mp h
  rw [failIf_eq_ok] at h1 h2
  exact ⟨not_not.mp h1, h2⟩

/-! ## Coverage after a head replacement -/

/-- What `coverageRangesAfterReorg` keeps of one range. -/
def trimRange (removed current : BlockRange) : List BlockRange :=
  if rangesOverlap current removed = false then [current]
  else
    (if current.start < removed.start then [⟨current.start, removed.start - 1⟩] else [])
      ++ (if current.stop > removed.stop ∧ removed.stop ≠ maxUint64 then
        [⟨removed.stop + 1, current.stop⟩] else [])

/-- What `coverageRangesAfterSparseReplacement` keeps of one range. -/
def trimHeight (height : Uint64) (current : BlockRange) : List BlockRange :=
  if height < current.start ∨ height > current.stop then [current]
  else
    (if current.start < height then [⟨current.start, height - 1⟩] else [])
      ++ (if height < current.stop ∧ height ≠ maxUint64 then
        [⟨height + 1, current.stop⟩] else [])

/-- A height with something above it is not the last one, so the overflow test
    of the right piece never fires. -/
private theorem lt_and_ne_max {a b : Uint64} : a < b ∧ a ≠ maxUint64 ↔ a < b := by
  refine ⟨And.left, fun h => ⟨h, ?_⟩⟩
  rintro rfl
  exact absurd h (not_lt.mpr (Fin.le_last b))

theorem trimRange_eq_cut (removed : BlockRange) :
    trimRange removed = cut (· - 1) (· + 1) removed := by
  funext current
  unfold trimRange cut rangesOverlap
  by_cases h : overlap current removed = true
  · rw [if_neg (by rw [h]; exact Bool.noConfusion), if_pos h]
    simp only [gt_iff_lt, lt_and_ne_max]
  · rw [if_pos (by simpa using h), if_neg h]

/-- Taking a height out is the cut of a range of one height. -/
theorem trimHeight_eq_cut (height : Uint64) :
    trimHeight height = cut (· - 1) (· + 1) ⟨height, height⟩ := by
  funext current
  unfold trimHeight cut overlap
  by_cases h : height < current.start ∨ height > current.stop
  · have hno : ¬ (current.start ≤ height ∧ height ≤ current.stop) := by
      rintro ⟨h1, h2⟩
      rcases h with h | h
      · exact absurd h1 (not_le.mpr h)
      · exact absurd h2 (not_le.mpr h)
    rw [if_pos h, if_neg (by simpa using hno)]
  · have hyes : (decide (current.start ≤ height) && decide (height ≤ current.stop))
        = true := by
      obtain ⟨h1, h2⟩ := not_or.mp h
      simpa using And.intro (not_lt.mp h1) (not_lt.mp h2)
    rw [if_neg h, if_pos hyes]
    simp only [lt_and_ne_max]

theorem covers_trimRange (removed : BlockRange) (ranges : List BlockRange) (n : Uint64) :
    Covers (ranges.flatMap (trimRange removed)) n ↔ Covers ranges n ∧ ¬ removed.Has n := by
  rw [trimRange_eq_cut]
  exact covers_flatMap_cut sub_one_covBy covBy_add_one removed ranges n

theorem covers_trimHeight (height : Uint64) (ranges : List BlockRange) (n : Uint64) :
    Covers (ranges.flatMap (trimHeight height)) n ↔ Covers ranges n ∧ n ≠ height := by
  rw [trimHeight_eq_cut, covers_flatMap_cut sub_one_covBy covBy_add_one]
  have : Span.Has (⟨height, height⟩ : BlockRange) n ↔ n = height := by
    unfold Span.Has
    rw [and_comm]
    exact le_antisymm_iff.symm
  rw [this]

section Replacements

variable [ChainBundle B H]

/-- The heights of an attached branch, read off its first and last bundle. -/
def attachedRange (attached : List B) : Except StoreError (Option BlockRange) :=
  match attached.head?, attached.getLast? with
  | some first, some last => do
      let first ← refFromBundle first
      let last ← refFromBundle last
      return some ⟨first.number, last.number⟩
  | _, _ => return none

/-- The first half of `coverageRangesAfterReorg`: what stays once the detached
    branch is taken out. -/
def coverageBelowReorg (ranges : List BlockRange) (reorg : Reorg B H) :
    Except StoreError (List BlockRange) :=
  match reorg.detached.val with
  | [] => .ok ranges
  | top :: _ => do
      failIf (reorg.ancestor.number = maxUint64) (.conflict "reorg ancestor height overflows")
      failIf (rangeCovered ranges ⟨reorg.ancestor.number + 1, top.number⟩ = false)
        (.conflict "detached reorg branch is not fully covered")
      return ranges.flatMap (trimRange ⟨reorg.ancestor.number + 1, top.number⟩)

/-- The coverage after a reorg: the heights above the ancestor out, the attached ones in.
    -/
def coverageRangesAfterReorg (ranges : List BlockRange) (reorg : Reorg B H) :
    Except StoreError (List BlockRange) := do
  let next ← coverageBelowReorg ranges reorg
  let added ← attachedRange reorg.attached.val
  normalizeCoverageRanges (next ++ added.toList)

/-- The heights a reorg takes out of coverage. -/
def Reorg.Removes (reorg : Reorg B H) (n : Uint64) : Prop :=
  ∃ top, reorg.detached.val.head? = some top
    ∧ Span.Has (⟨reorg.ancestor.number + 1, top.number⟩ : BlockRange) n

variable {ranges next : List BlockRange}

/-- Coverage after a reorg: the removed heights are gone, the attached ones are
    in, the list is in normal form, and all of the removed heights were covered. -/
theorem coverageRangesAfterReorg_ok {reorg : Reorg B H}
    (h : coverageRangesAfterReorg ranges reorg = .ok next) :
    Normalized next
      ∧ (reorg.detached.val ≠ [] → reorg.ancestor.number ≠ maxUint64)
      ∧ (∀ n, reorg.Removes n → Covers ranges n)
      ∧ ∃ added, attachedRange reorg.attached.val = .ok added
        ∧ (∀ r ∈ added, r.Proper)
        ∧ ∀ n, Covers next n ↔ (Covers ranges n ∧ ¬ reorg.Removes n)
          ∨ ∃ r ∈ added, r.Has n := by
  obtain ⟨kept, hkept, h⟩ := bind_eq_ok.mp h
  obtain ⟨added, hadded, h⟩ := bind_eq_ok.mp h
  obtain ⟨hproper, hnorm, hcov⟩ := normalizeCoverageRanges_ok h
  have haddedproper : ∀ r ∈ added, r.Proper := by
    intro r hr
    exact hproper r (List.mem_append_right _ (mem_toList.mpr hr))
  have haddcov : ∀ n, Covers added.toList n ↔ ∃ r ∈ added, r.Has n := by
    intro n
    constructor
    · rintro ⟨r, hr, hn⟩
      exact ⟨r, mem_toList.mp hr, hn⟩
    · rintro ⟨r, hr, hn⟩
      exact ⟨r, mem_toList.mpr hr, hn⟩
  cases hd : reorg.detached.val with
  | nil =>
    rw [coverageBelowReorg, hd] at hkept
    cases hkept
    -- nothing is detached, so no height is taken out
    have hnone : ∀ n, ¬ reorg.Removes n := by
      rintro n ⟨top, htop, -⟩
      rw [hd] at htop
      cases htop
    refine ⟨hnorm, fun h => absurd rfl h, fun n hn => absurd hn (hnone n), added, hadded,
      haddedproper, ?_⟩
    intro n
    rw [hcov n, covers_append, haddcov n]
    exact or_congr_left ⟨fun h => ⟨h, hnone n⟩, And.left⟩
  | cons top rest =>
    rw [coverageBelowReorg, hd] at hkept
    obtain ⟨_, hmax, hkept⟩ := bind_eq_ok.mp hkept
    obtain ⟨_, hcovered, hkept⟩ := bind_eq_ok.mp hkept
    rw [failIf_eq_ok] at hmax hcovered
    have hk := pure_eq_ok.mp hkept
    subst hk
    -- the removed heights are one range, from behind the ancestor to the old tip
    have hrem : ∀ n, reorg.Removes n
        ↔ Span.Has (⟨reorg.ancestor.number + 1, top.number⟩ : BlockRange) n := by
      intro n
      unfold Reorg.Removes
      rw [hd]
      constructor
      · rintro ⟨t, ht, hn⟩
        cases ht
        exact hn
      · intro hn
        exact ⟨top, rfl, hn⟩
    refine ⟨hnorm, fun _ => hmax, ?_, added, hadded, haddedproper, ?_⟩
    · intro n hn
      refine covers_of_contains ?_ ((hrem n).mp hn)
      simpa [rangeCovered] using hcovered
    · intro n
      rw [hcov n, covers_append, haddcov n, covers_trimRange, hrem n]

/-- The loop of `coverageRangesAfterSparseReplacement` over the detached blocks. -/
def trimHeights : List BlockRange → List (BlockRef H) → Except StoreError (List BlockRange)
  | next, [] => .ok next
  | next, detached :: rest => do
      failIf (¬ Covers next detached.number)
        (.conflict s!"detached sparse block {detached.number.val} is not covered")
      trimHeights (next.flatMap (trimHeight detached.number)) rest

/-- The interval of an attached reference list. -/
def spanOf (attached : List (BlockRef H)) : Option BlockRange :=
  match attached.head?, attached.getLast? with
  | some first, some last => some ⟨first.number, last.number⟩
  | _, _ => none

/-- The coverage after a replacement: the detached heights out one by one, the attached
    ones in. -/
def coverageRangesAfterSparseReplacement (ranges : List BlockRange)
    (replacement : SparseCanonicalReplacement B H) (attached : List (BlockRef H)) :
    Except StoreError (List BlockRange) := do
  let next ← trimHeights ranges replacement.detached.val
  normalizeCoverageRanges (next ++ (spanOf attached).toList)

omit [ChainBundle B H] in
/-- Detached heights that are taken out were covered, and the others stay. -/
theorem trimHeights_ok {detached : List (BlockRef H)} (h : trimHeights ranges detached = .ok next) :
    (∀ d ∈ detached, Covers ranges d.number)
      ∧ ∀ n, Covers next n ↔ Covers ranges n ∧ ∀ d ∈ detached, d.number ≠ n := by
  induction detached generalizing ranges with
  | nil =>
    cases h
    exact ⟨fun d hd => (nomatch hd),
      fun n => ⟨fun hn => ⟨hn, fun d hd => (nomatch hd)⟩, And.left⟩⟩
  | cons top rest ih =>
    obtain ⟨_, hcov, h⟩ := bind_eq_ok.mp h
    rw [failIf_eq_ok, not_not] at hcov
    obtain ⟨hrest, hnext⟩ := ih h
    refine ⟨?_, ?_⟩
    · intro d hd
      rcases List.mem_cons.mp hd with rfl | hd
      · exact hcov
      · exact ((covers_trimHeight _ _ _).mp (hrest d hd)).1
    · intro n
      rw [hnext n, covers_trimHeight, List.forall_mem_cons, and_assoc, ne_comm]

omit [ChainBundle B H] in
/-- Coverage after a sparse replacement: the detached heights are gone, the
    attached ones are in, and the list is in normal form. -/
theorem coverageRangesAfterSparseReplacement_ok
    {replacement : SparseCanonicalReplacement B H} {attached : List (BlockRef H)}
    (h : coverageRangesAfterSparseReplacement ranges replacement attached = .ok next) :
    Normalized next ∧ (∀ d ∈ replacement.detached.val, Covers ranges d.number)
      ∧ (∀ r ∈ spanOf attached, r.Proper)
      ∧ ∀ n, Covers next n
        ↔ (Covers ranges n ∧ ∀ d ∈ replacement.detached.val, d.number ≠ n)
          ∨ ∃ r ∈ spanOf attached, r.Has n := by
  obtain ⟨kept, hkept, h⟩ := bind_eq_ok.mp h
  obtain ⟨hproper, hnorm, hcov⟩ := normalizeCoverageRanges_ok h
  obtain ⟨hdet, hkeptcov⟩ := trimHeights_ok hkept
  refine ⟨hnorm, hdet, ?_, ?_⟩
  · intro r hr
    exact hproper r (List.mem_append_right _ (mem_toList.mpr hr))
  · intro n
    rw [hcov n, covers_append, hkeptcov n]
    refine or_congr_right ?_
    constructor
    · rintro ⟨r, hr, hn⟩
      exact ⟨r, mem_toList.mp hr, hn⟩
    · rintro ⟨r, hr, hn⟩
      exact ⟨r, mem_toList.mpr hr, hn⟩

end Replacements

end Store
