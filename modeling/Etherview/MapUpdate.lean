import Mathlib.Data.Finmap
import Mathlib.Data.List.Sort

/-! # Bulk updates of a finite map

    A loop that writes or deletes one key per element of a list, and what a
    lookup sees afterwards. -/

namespace MapUpdate

open List Finmap

variable {α κ ν : Type} [DecidableEq κ]

/-- Finite maps with values of one type. -/
abbrev Map (κ ν : Type) := Finmap (fun _ : κ => ν)

/-- Write one entry per list element, in order. -/
def insertAll (key : α → κ) (value : α → ν) (l : List α) (m : Map κ ν) : Map κ ν :=
  l.foldl (fun m x => m.insert (key x) (value x)) m

/-- Delete one key per list element. -/
def eraseAll (key : α → κ) (l : List α) (m : Map κ ν) : Map κ ν :=
  l.foldl (fun m x => m.erase (key x)) m

/-- Rewrite the entry of a key; a missing entry counts as `default`. -/
def adjust (default : ν) (f : ν → ν) (k : κ) (m : Map κ ν) : Map κ ν :=
  m.insert k (f ((m.lookup k).getD default))

/-- Rewrite one entry per list element. -/
def adjustAll (default : ν) (f : ν → ν) (key : α → κ) (l : List α) (m : Map κ ν) :
    Map κ ν :=
  l.foldl (fun m x => adjust default f (key x) m) m

/-- Inserting a list, from its head. -/
theorem insertAll_cons (key : α → κ) (value : α → ν) (x : α)
    (l : List α) (m : Map κ ν) :
    insertAll key value (x :: l) m = insertAll key value l (m.insert (key x) (value x)) := rfl

theorem eraseAll_cons (key : α → κ) (x : α) (l : List α) (m : Map κ ν) :
    eraseAll key (x :: l) m = eraseAll key l (m.erase (key x)) := rfl

/-- Adjusting along a list, from its head. -/
theorem adjustAll_cons (default : ν) (f : ν → ν) (key : α → κ) (x : α)
    (l : List α) (m : Map κ ν) :
    adjustAll default f key (x :: l) m
      = adjustAll default f key l (adjust default f (key x) m) := rfl

theorem insertAll_map {β : Type} (f : β → α) (key : α → κ)
    (value : α → ν) (l : List β)
    (m : Map κ ν) :
    insertAll key value (l.map f) m
      = insertAll (fun x => key (f x)) (fun x => value (f x)) l m := foldl_map

variable {key : α → κ} {value : α → ν} {l : List α} {m : Map κ ν} {k : κ}

/-- Inserting leaves the other keys. -/
theorem lookup_insertAll_of_notMem (h : ∀ x ∈ l, key x ≠ k) :
    (insertAll key value l m).lookup k = m.lookup k := by
  induction l generalizing m with
  | nil => rfl
  | cons x rest ih =>
    rw [insertAll_cons, ih (fun y hy => h y (mem_cons_of_mem _ hy))]
    exact lookup_insert_of_ne m (Ne.symm (h x mem_cons_self))

/-- A written key holds the value of an element that wrote it. -/
theorem lookup_insertAll_of_mem (h : ∃ x ∈ l, key x = k) :
    ∃ x ∈ l, key x = k ∧ (insertAll key value l m).lookup k = some (value x) := by
  induction l generalizing m with
  | nil =>
    obtain ⟨x, hx, -⟩ := h
    cases hx
  | cons x rest ih =>
    rw [insertAll_cons]
    by_cases hrest : ∃ y ∈ rest, key y = k
    · obtain ⟨y, hy, hk, hlook⟩ := ih (m := m.insert (key x) (value x)) hrest
      exact ⟨y, mem_cons_of_mem _ hy, hk, hlook⟩
    · have hno : ∀ y ∈ rest, key y ≠ k := fun y hy hk => hrest ⟨y, hy, hk⟩
      obtain ⟨y, hy, hk⟩ := h
      rcases mem_cons.mp hy with rfl | hy
      · refine ⟨y, mem_cons_self, hk, ?_⟩
        rw [lookup_insertAll_of_notMem hno, ← hk]
        exact lookup_insert m
      · exact absurd hk (hno y hy)

/-- Where the entry of a key comes from after a bulk write. -/
theorem lookup_insertAll_cases {v : ν} (h : (insertAll key value l m).lookup k = some v) :
    (∃ x ∈ l, key x = k ∧ value x = v)
      ∨ ((∀ x ∈ l, key x ≠ k) ∧ m.lookup k = some v) := by
  by_cases hmem : ∃ x ∈ l, key x = k
  · obtain ⟨x, hx, hk, hlook⟩ := lookup_insertAll_of_mem hmem
    rw [hlook] at h
    exact .inl ⟨x, hx, hk, Option.some.inj h⟩
  · have hno : ∀ x ∈ l, key x ≠ k := fun x hx hk => hmem ⟨x, hx, hk⟩
    rw [lookup_insertAll_of_notMem hno] at h
    exact .inr ⟨hno, h⟩

/-- A bulk delete hides the deleted keys and nothing else. -/
theorem lookup_eraseAll {v : ν} :
    (eraseAll key l m).lookup k = some v ↔ (∀ x ∈ l, key x ≠ k)
      ∧ m.lookup k = some v := by
  induction l generalizing m with
  | nil => exact ⟨fun h => ⟨fun x hx => (nomatch hx), h⟩, And.right⟩
  | cons x rest ih =>
    rw [eraseAll_cons, ih, forall_mem_cons]
    by_cases hk : key x = k
    · rw [← hk, lookup_erase]
      constructor
      · rintro ⟨-, hno⟩
        cases hno
      · rintro ⟨⟨hno, -⟩, -⟩
        exact absurd rfl hno
    · rw [lookup_erase_ne (Ne.symm hk)]
      exact ⟨fun ⟨h1, h2⟩ => ⟨⟨hk, h1⟩, h2⟩,
        fun ⟨⟨_, h1⟩, h2⟩ => ⟨h1, h2⟩⟩

theorem lookup_eraseAll_of_notMem
    (h : ∀ x ∈ l, key x ≠ k) : (eraseAll key l m).lookup k = m.lookup k := by
  refine Option.ext ?_
  intro v
  rw [lookup_eraseAll]
  exact ⟨And.right, fun hv => ⟨h, hv⟩⟩

/-- What an idempotent bulk rewrite leaves under a key. -/
theorem lookup_adjustAll {default : ν} {f : ν → ν} (hf : ∀ v, f (f v) = f v) :
    ((adjustAll default f key l m).lookup k).getD default
      = if ∃ x ∈ l, key x = k then f ((m.lookup k).getD default)
        else (m.lookup k).getD default := by
  induction l generalizing m with
  | nil => simp [adjustAll]
  | cons x rest ih =>
    rw [adjustAll_cons, ih]
    by_cases hk : key x = k
    · have hhere : ((adjust default f (key x) m).lookup k).getD default
          = f ((m.lookup k).getD default) := by
        unfold adjust
        rw [hk, lookup_insert]
        rfl
      have hyes : ∃ y ∈ x :: rest, key y = k := ⟨x, mem_cons_self, hk⟩
      rw [hhere, if_pos hyes]
      by_cases hrest : ∃ y ∈ rest, key y = k
      · rw [if_pos hrest, hf]
      · rw [if_neg hrest]
    · have hhere : (adjust default f (key x) m).lookup k = m.lookup k :=
        lookup_insert_of_ne m (Ne.symm hk)
      rw [hhere]
      have hiff : (∃ y ∈ x :: rest, key y = k) ↔ ∃ y ∈ rest, key y = k := by
        simp [hk]
      simp only [hiff]

/-- Inserting what is there changes nothing. -/
theorem insert_self {v : ν} (h : m.lookup k = some v) : m.insert k v = m := by
  refine ext_lookup fun k' => ?_
  by_cases hk : k' = k
  · rw [hk, lookup_insert, h]
  · exact lookup_insert_of_ne m hk

/-- The keys in ascending order. -/
def sortedKeys {κ : Type} [LinearOrder κ] (m : Map κ ν) : List κ :=
  Quot.liftOn m.keys.val (List.insertionSort (· ≤ ·)) (by
    intro a b hab
    refine List.Perm.eq_of_pairwise' (r := (· ≤ ·)) (List.pairwise_insertionSort _ a)
      (List.pairwise_insertionSort _ b) ?_
    exact (List.perm_insertionSort _ a).trans (hab.trans (List.perm_insertionSort _ b).symm))

end MapUpdate
