import Mathlib.Data.List.Sort
import Mathlib.Order.Basic

/-! # Pages of keyed rows

    A reader that keeps the key of the last row it has seen and asks for the next rows
    above it, in the order of their keys and at most a given number of them.  A page is
    sorted, it lies above its cursor, and it leaves out a row above the cursor only when
    it is full of smaller ones (`page_reaches`).  A page that is not full has therefore
    reached the end of the rows, and a full one leaves as many rows fewer behind it
    (`length_after_page`). -/

namespace Paging

open List

variable {ρ κ : Type} [LinearOrder κ] (key : ρ → κ)

/-- Rows in the order of their keys. -/
def byKey (rows : List ρ) : List ρ := rows.insertionSort fun a b => key a ≤ key b

/-- The rows above the cursor, in order, up to the limit. -/
def page (after : κ) (limit : Nat) (rows : List ρ) : List ρ :=
  (byKey key (rows.filter fun row => after < key row)).take limit

variable {key} {after : κ} {limit : Nat} {rows : List ρ} {row : ρ}

theorem mem_byKey : row ∈ byKey key rows ↔ row ∈ rows := mem_insertionSort _

theorem byKey_pairwise (key : ρ → κ) (rows : List ρ) :
    (byKey key rows).Pairwise fun a b => key a ≤ key b := by
  exact pairwise_insertionSort _ rows

/-- The rows of a page lie behind the cursor. -/
theorem mem_of_page (h : row ∈ page key after limit rows) : row ∈ rows ∧ after < key row := by
  have hmem := mem_filter.mp (mem_byKey.mp (mem_of_mem_take h))
  exact ⟨hmem.1, of_decide_eq_true hmem.2⟩

/-- A page keeps its limit. -/
theorem length_page_le (after : κ) (limit : Nat) (rows : List ρ) :
    (page key after limit rows).length ≤ limit := length_take_le _ _

section

variable (hkeys : (rows.map key).Nodup)
include hkeys

/-- Sorted rows with distinct keys increase strictly. -/
theorem byKey_strict : (byKey key rows).Pairwise fun a b => key a < key b := by
  have hperm := perm_insertionSort (fun a b : ρ => key a ≤ key b) rows
  have hdistinct : (byKey key rows).Pairwise fun a b => key a ≠ key b :=
    pairwise_map.mp ((hperm.map key).nodup_iff.mpr hkeys)
  exact ((byKey_pairwise key rows).and hdistinct).imp fun h => lt_of_le_of_ne h.1 h.2

omit [LinearOrder κ] in
/-- Fewer rows have distinct keys too. -/
theorem nodup_filter_keys (p : ρ → Bool) :
    ((rows.filter p).map key).Nodup := hkeys.sublist (filter_sublist.map key)

/-- A page of rows with distinct keys is strictly sorted. -/
theorem page_pairwise : (page key after limit rows).Pairwise fun a b => key a < key b :=
  (byKey_strict (nodup_filter_keys hkeys _)).sublist (take_sublist _ _)

end

/-- **A row above the cursor is on the page, or the page is full of smaller rows.** -/
theorem page_reaches (limit : Nat) (hmem : row ∈ rows) (habove : after < key row) :
    row ∈ page key after limit rows ∨ (page key after limit rows).length = limit
        ∧ ∀ other ∈ page key after limit rows, key other ≤ key row := by
  have hsorted := byKey_pairwise key (rows.filter fun row => after < key row)
  have hin : row ∈ byKey key (rows.filter fun row => after < key row) :=
    mem_byKey.mpr (mem_filter.mpr ⟨hmem, decide_eq_true habove⟩)
  rw [← take_append_drop limit (byKey key _), mem_append] at hin
  rcases hin with hin | hin
  · exact .inl hin
  · refine .inr ⟨length_take_of_le ?_, fun other hother => ?_⟩
    · -- something is left after the page, so it is full
      have hpos := length_pos_of_mem hin
      rw [length_drop] at hpos
      omega
    · rw [← take_append_drop limit (byKey key _), pairwise_append] at hsorted
      exact hsorted.2.2 other hother row hin

/-- **Reading on after a page leaves the rows that were not on it.** -/
theorem length_after_page (hkeys : (rows.map key).Nodup) {last : ρ}
    (hlast : (page key after limit rows).getLast? = some last) :
    (page key after limit rows).length + (rows.filter fun row => key last < key row).length
      = (rows.filter fun row => after < key row).length := by
  have hsorted := byKey_strict (nodup_filter_keys hkeys fun row => after < key row)
  have habove : after < key last := (mem_of_page (mem_of_getLast? hlast)).2
  -- the rows above the last one of the page are those that follow it
  have hrest : (byKey key (rows.filter fun row => after < key row)).filter
      (fun row => key last < key row)
      = (byKey key (rows.filter fun row => after < key row)).drop limit := by
    obtain ⟨front, hfront⟩ := getLast?_eq_some_iff.mp hlast
    rw [page] at hfront
    rw [← take_append_drop limit (byKey key _), pairwise_append] at hsorted
    obtain ⟨hpage, -, hbetween⟩ := hsorted
    conv_lhs => rw [← take_append_drop limit (byKey key _)]
    rw [filter_append, filter_eq_nil_iff.mpr, filter_eq_self.mpr, nil_append]
    · intro row hrow
      exact decide_eq_true (hbetween last (mem_of_getLast? hlast) row hrow)
    · intro row hrow
      rw [hfront, pairwise_append] at hpage
      rw [hfront, mem_append, mem_singleton] at hrow
      rcases hrow with hrow | rfl
      · simpa using le_of_lt (hpage.2.2 row hrow last (mem_singleton.mpr rfl))
      · simp
  have hperm := (perm_insertionSort (fun a b : ρ => key a ≤ key b)
    (rows.filter fun row => after < key row))
  have hcount : (rows.filter fun row => key last < key row).length
      = ((byKey key (rows.filter fun row => after < key row)).drop limit).length := by
    rw [← hrest, byKey, (hperm.filter _).length_eq, filter_filter]
    congr 2
    funext row
    by_cases h : key last < key row
    · simp [h, lt_trans habove h]
    · simp [h]
  rw [hcount, page, ← length_append, take_append_drop, byKey, length_insertionSort]

end Paging
