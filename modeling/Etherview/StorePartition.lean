import Etherview.StoreTypes

/-! # Partition ranges

    `validatePartitionRequest` and `partitionRangeStarts` of `internal/store/partition.go`: the
    fixed-width ranges that a half-open interval of heights needs.

    The loop stops only when it meets the last aligned height, so it is modelled with a fuel.
    `partition_ranges_exact` says that an accepted request never runs out of it. -/

namespace Store

open List Transact Fin

/-- The heights of a partition. -/
def defaultPartitionSpan : Uint64 := 1000000

/-- The checks of a request, with the width that it is for. -/
def validatePartitionRequest (start stop span : Uint64) : Except StoreError Uint64 := do
  let span := if span = 0 then defaultPartitionSpan else span
  failIf (span ≠ defaultPartitionSpan)
    (.plain s!"ensure partitions: span must be {defaultPartitionSpan.val}")
  failIf (stop ≤ start) (.plain "ensure partitions: end must exceed start")
  let last := stop - 1
  let lower := last - last % span
  failIf (lower > maxUint64 - span) (.plain "ensure partitions: uint64 range overflow")
  pure span

/-- The loop of `partitionRangeStarts`. -/
def partitionRangeLoop (last span : Uint64) :
    Nat → Uint64 → List Uint64 → Option (List Uint64)
  | 0, _, _ => none
  | fuel + 1, lower, ranges =>
    let ranges := ranges ++ [lower]
    if lower = last then some ranges
    else partitionRangeLoop last span fuel (lower + span) ranges

/-- The starts of the partitions that a range of heights meets. -/
def partitionRangeStarts (fuel : Nat) (start stop span : Uint64) : Option (List Uint64) :=
  let first := start - start % span
  let last := (stop - 1) - (stop - 1) % span
  partitionRangeLoop last span fuel first []

/-- The range of `span` heights from the multiple `lower` on meets the interval. -/
def PartitionRange (start stop span : Uint64) (lower : Nat) : Prop :=
  span.val ∣ lower ∧ ∃ n, (lower ≤ n ∧ n < lower + span.val)
    ∧ start.val ≤ n ∧ n < stop.val

variable {start stop span width : Uint64}

/-- The multiple below a height. -/
theorem val_aligned (n span : Uint64) : (n - n % span).val = n.val / span.val * span.val := by
  have hdiv := Nat.div_add_mod' n.val span.val
  have hle : n % span ≤ n := Nat.mod_le n.val span.val
  rw [sub_val_of_le hle, mod_val]
  omega

/-- The ranges are those of the first height up to those of the last one. -/
theorem partitionRange_iff (hspan : 0 < span.val) (h : start < stop) {lower : Nat} :
    PartitionRange start stop span lower ↔
    ∃ k, lower = k * span.val ∧ start.val / span.val ≤ k
      ∧ k ≤ (stop - 1).val / span.val := by
  have hlast : (stop - 1).val = stop.val - 1 := val_sub_one (Fin.ne_zero_of_lt h)
  simp only [← Nat.lt_succ_iff (m := start.val / span.val), Nat.div_lt_iff_lt_mul hspan,
    Nat.le_div_iff_mul_le hspan, Nat.succ_mul, hlast]
  rw [lt_def] at h
  constructor
  · rintro ⟨⟨k, rfl⟩, n, ⟨hlower, hupper⟩, hstart, hstop⟩
    rw [Nat.mul_comm] at hlower hupper ⊢
    exact ⟨k, rfl, by omega, by omega⟩
  · rintro ⟨k, rfl, hstart, hstop⟩
    -- the first height of both
    exact ⟨dvd_mul_left _ _, max start.val (k * span.val), by omega, by omega⟩

/-- The loop collects every multiple up to the last one. -/
theorem partitionRangeLoop_eq {last lower : Uint64} {count : Nat} (hspan : 0 < span.val)
    (hlast : lower.val + count * span.val = last.val) :
    ∃ rest, rest.map val = range' lower.val (count + 1) span.val ∧ ∀ fuel > count, ∀ ranges,
      partitionRangeLoop last span fuel lower ranges = some (ranges ++ rest) := by
  -- `count` rounds are left before the loop meets the last multiple
  induction count generalizing lower with
  | zero =>
    rw [Nat.zero_mul] at hlast
    refine ⟨[lower], rfl, fun fuel hfuel ranges => ?_⟩
    obtain ⟨fuel, rfl⟩ := Nat.exists_eq_succ_of_ne_zero hfuel.ne'
    rw [partitionRangeLoop, if_pos (Fin.ext hlast)]
  | succ count ih =>
    rw [Nat.succ_mul] at hlast
    have hne : lower ≠ last := by
      rintro rfl
      omega
    have hsum : (lower + span).val = lower.val + span.val := val_add_eq_of_add_lt (by omega)
    have hnext : (lower + span).val + count * span.val = last.val := by omega
    obtain ⟨rest, hrest, hloop⟩ := ih hnext
    refine ⟨lower :: rest, ?_, fun fuel hfuel ranges => ?_⟩
    · rw [map_cons, hrest, hsum, ← range'_succ]
    · obtain ⟨fuel, rfl⟩ := Nat.exists_eq_succ_of_ne_zero (Nat.ne_zero_of_lt hfuel)
      rw [partitionRangeLoop, if_neg hne, hloop fuel (Nat.lt_of_succ_lt_succ hfuel),
        List.append_assoc, singleton_append]

/-- The loop ends with the ranges of the interval. -/
theorem partitionRangeStarts_eq (hspan : 0 < span.val) (h : start < stop) :
    ∃ ranges, ranges.Pairwise (· < ·) ∧
      (∀ lower, lower ∈ ranges.map val ↔ PartitionRange start stop span lower) ∧
      ∃ rounds, ∀ fuel ≥ rounds, partitionRangeStarts fuel start stop span = some ranges := by
  have hle : start.val ≤ (stop - 1).val := by
    rw [val_sub_one (Fin.ne_zero_of_lt h)]
    exact Nat.le_sub_one_of_lt h
  obtain ⟨count, hcount⟩ := Nat.exists_eq_add_of_le (Nat.div_le_div_right (c := span.val) hle)
  have hlast : (start - start % span).val + count * span.val =
      (stop - 1 - (stop - 1) % span).val := by
    rw [val_aligned, val_aligned, hcount, Nat.add_mul]
  obtain ⟨ranges, hranges, hloop⟩ := partitionRangeLoop_eq hspan hlast
  rw [val_aligned] at hranges
  refine ⟨ranges, ?_, fun lower => ?_, count + 1, fun fuel hfuel => hloop fuel hfuel []⟩
  · have hsorted : (ranges.map val).Pairwise (· < ·) := by
      rw [hranges]
      exact pairwise_lt_range' span.val hspan
    rw [pairwise_map] at hsorted
    exact hsorted
  · rw [hranges, mem_range', partitionRange_iff hspan h, hcount]
    constructor
    · rintro ⟨i, hi, rfl⟩
      exact ⟨start.val / span.val + i, by rw [Nat.add_mul, Nat.mul_comm i], by omega, by omega⟩
    · rintro ⟨k, rfl, hk, hlast⟩
      obtain ⟨i, rfl⟩ := Nat.exists_eq_add_of_le hk
      exact ⟨i, by omega, by rw [Nat.add_mul, Nat.mul_comm i]⟩

/-- An accepted request has the one width, is not empty, and its last range does not wrap. -/
def PartitionAccepted (start stop span width : Uint64) : Prop :=
  width = defaultPartitionSpan ∧ (span = 0 ∨ span = defaultPartitionSpan) ∧ start < stop ∧
    (stop - 1).val / width.val * width.val + width.val < 18446744073709551616

theorem validatePartitionRequest_eq_ok :
    validatePartitionRequest start stop span = .ok width
      ↔ PartitionAccepted start stop span width := by
  have hroom : (maxUint64 - width).val = maxUint64.val - width.val :=
    sub_val_of_le (le_maxUint64 width)
  have hwrap : ¬ stop - 1 - (stop - 1) % width > maxUint64 - width ↔
      (stop - 1).val / width.val * width.val + width.val < 18446744073709551616 := by
    rw [not_lt, le_def, val_aligned, hroom, maxUint64_val]
    omega
  simp only [validatePartitionRequest, bind_eq_ok, failIf_eq_ok, pure_eq_ok, PartitionAccepted,
    ← hwrap]
  grind

/-- **Partition ranges are exact.**  A request is accepted exactly under `PartitionAccepted`.
    Then the loop ends, and it returns in increasing order exactly the aligned ranges that meet
    the interval, none of which wraps. -/
theorem partition_ranges_exact (start stop span width : Uint64) :
    (validatePartitionRequest start stop span = .ok width ↔
      PartitionAccepted start stop span width) ∧
    (validatePartitionRequest start stop span = .ok width → ∃ ranges,
      (∃ rounds, ∀ fuel ≥ rounds, partitionRangeStarts fuel start stop width
        = some ranges) ∧
      ranges.Pairwise (· < ·) ∧
      (∀ lower, lower ∈ ranges.map val ↔ PartitionRange start stop width lower) ∧
      ∀ lower ∈ ranges, (lower + width).val = lower.val + width.val) := by
  refine ⟨validatePartitionRequest_eq_ok, fun h => ?_⟩
  obtain ⟨rfl, -, hlt, hroom⟩ := validatePartitionRequest_eq_ok.mp h
  have hspan : 0 < defaultPartitionSpan.val := Nat.succ_pos 999999
  obtain ⟨ranges, hsorted, hexact, hends⟩ := partitionRangeStarts_eq hspan hlt
  refine ⟨ranges, hends, hsorted, hexact, fun lower hlower => val_add_eq_of_add_lt ?_⟩
  obtain ⟨k, hk, -, hle⟩ :=
    (partitionRange_iff hspan hlt).mp ((hexact _).mp (mem_map_of_mem hlower))
  have := Nat.mul_le_mul_right defaultPartitionSpan.val hle
  omega

/-- The two ranges around a boundary. -/
theorem partition_ranges_exact_boundary :
    validatePartitionRequest 999999 1000001 0 = .ok 1000000 ∧
    partitionRangeStarts 2 999999 1000001 1000000 = some [0, 1000000] ∧
    ∃ ranges, (∃ rounds, ∀ fuel ≥ rounds,
        partitionRangeStarts fuel 999999 1000001 1000000 = some ranges) ∧
      ∀ lower, lower ∈ ranges.map val ↔ PartitionRange 999999 1000001 1000000 lower := by
  have h : validatePartitionRequest 999999 1000001 0 = .ok 1000000 := rfl
  obtain ⟨ranges, hends, -, hexact, -⟩ := (partition_ranges_exact 999999 1000001 0 1000000).2 h
  exact ⟨h, rfl, ranges, hends, hexact⟩

end Store
