import Mathlib.Data.List.Sort

/-! # Slices

    A slice expression fails out of range (`slice`).

    Filtering a slice into its own storage: the loop reads at one position and writes at
    another one that is never ahead of it.  What was already read may be overwritten,
    what is still to be read is not (`filterLoop_run`), so the kept elements are those of
    the slice as it was. -/

namespace Slices

open List

variable {α : Type}

/-! ## Slice expressions -/

/-- `xs[start:stop]`, which has no value out of range. -/
def slice (xs : List α) (start stop : Int) : Option (List α) :=
  if 0 ≤ start ∧ start ≤ stop ∧ stop ≤ xs.length then
    some ((xs.drop start.toNat).take (stop - start).toNat)
  else none

variable {xs : List α} {start width : Nat}

/-- In range, a slice is what lies between its bounds. -/
theorem slice_eq (h : start + width ≤ xs.length) :
    slice xs start (start + width) = some ((xs.drop start).take width) := by
  rw [slice, if_pos ⟨by omega, by omega, by omega⟩]
  congr 2
  omega

theorem length_slice (h : start + width ≤ xs.length) :
    ((xs.drop start).take width).length = width := by
  rw [length_take, length_drop]
  omega

/-! ## Filtering in place -/

/-- The loop: `count` elements are still to be read from `read` on, and `written` were
    kept. -/
def filterLoop (keep : α → Bool) : (count read written : Nat) → List α → List α × Nat
  | 0, _, written, slice => (slice, written)
  | count + 1, read, written, slice =>
    match slice[read]? with
    | none => (slice, written)
    | some x =>
      if keep x then filterLoop keep count (read + 1) (written + 1) (slice.set written x)
      else filterLoop keep count (read + 1) written slice

/-- The kept elements, in the storage of the slice. -/
def filterInPlace (keep : α → Bool) (slice : List α) : List α :=
  let (slice, written) := filterLoop keep slice.length 0 0 slice
  slice.take written

/-- Keeping the element under the read position moves it behind the kept ones. -/
private theorem set_kept (kept gap rest : List α) (x : α) :
    ∃ gap', (kept ++ gap ++ x :: rest).set kept.length x = (kept ++ [x]) ++ gap' ++ rest
      ∧ gap'.length = gap.length := by
  cases gap with
  | nil =>
    refine ⟨[], ?_, rfl⟩
    rw [append_nil, set_append_right _ _ le_rfl, Nat.sub_self, set_cons_zero,
      append_nil, append_assoc]
    rfl
  | cons y gap =>
    refine ⟨gap ++ [x], ?_, by simp⟩
    rw [append_assoc, set_append_right _ _ le_rfl, Nat.sub_self, cons_append, set_cons_zero]
    simp

/-- The storage is the kept elements, a gap, and the elements still to be read. -/
theorem filterLoop_run (keep : α → Bool) (rest kept gap : List α) :
    ∃ gap', filterLoop keep rest.length (kept.length + gap.length) kept.length
      (kept ++ gap ++ rest)
      = (kept ++ rest.filter keep ++ gap', (kept ++ rest.filter keep).length) := by
  induction rest generalizing kept gap with
  | nil =>
    refine ⟨gap, ?_⟩
    rw [filter_nil, append_nil, append_nil]
    rfl
  | cons x rest ih =>
    have hread : (kept ++ gap ++ x :: rest)[kept.length + gap.length]? = some x := by
      rw [← length_append, getElem?_append_right le_rfl, Nat.sub_self]
      rfl
    rw [length_cons, filterLoop, hread]
    simp only
    by_cases hkeep : keep x = true
    · rw [if_pos hkeep, filter_cons_of_pos hkeep]
      obtain ⟨gap', hset, hlen⟩ := set_kept kept gap rest x
      obtain ⟨last, hrun⟩ := ih (kept ++ [x]) gap'
      rw [length_append, length_singleton, hlen] at hrun
      rw [hset, show kept.length + gap.length + 1 = kept.length + 1 + gap.length by omega, hrun]
      refine ⟨last, ?_⟩
      rw [append_assoc kept, singleton_append]
    · rw [if_neg hkeep, filter_cons_of_neg hkeep]
      obtain ⟨last, hrun⟩ := ih kept (gap ++ [x])
      rw [length_append, length_singleton, ← Nat.add_assoc, ← append_assoc kept,
        append_assoc (kept ++ gap), singleton_append] at hrun
      exact ⟨last, hrun⟩

/-- **Filtering in place is filtering.** -/
theorem filterInPlace_eq (keep : α → Bool) (slice : List α) :
    filterInPlace keep slice = slice.filter keep := by
  obtain ⟨gap, hrun⟩ := filterLoop_run keep slice [] []
  simp only [nil_append, length_nil, Nat.add_zero] at hrun
  rw [filterInPlace, hrun]
  exact take_left

end Slices
