import Mathlib.Algebra.BigOperators.Group.List.Basic
import Mathlib.Algebra.Order.Ring.Int
import Mathlib.Data.List.Basic
import Mathlib.Data.List.Nodup

/-! # Tables with a primary key

    A table is a list of rows without two rows of one key.  A row is inserted when its
    key is new, and replaced by a row of the same key.  `lookup` answers by key; the
    lemmas say what it sees after each operation. -/

namespace Relational

open List Option

variable {κ ρ : Type} {key : ρ → κ}

/-- Rows with distinct keys. -/
structure Table (κ ρ : Type) (key : ρ → κ) where
  rows : List ρ
  nodup : (rows.map key).Nodup

namespace Table

/-- The table without rows. -/
def empty : Table κ ρ key where
  rows := []
  nodup := List.nodup_nil

variable (t : Table κ ρ key) {r q : ρ}

/-- Rows with one key are the same. -/
theorem eq_of_key (hr : r ∈ t.rows) (hq : q ∈ t.rows) (h : key r = key q) : r = q :=
  inj_on_of_nodup_map t.nodup hr hq h

section Lookup

variable [DecidableEq κ]

/-- The row of a key. -/
def lookup (k : κ) : Option ρ := t.rows.find? fun r => key r = k

variable {k : κ} {r : ρ}

/-- A row is found iff it is there under its key. -/
theorem lookup_eq_some : t.lookup k = some r ↔ r ∈ t.rows ∧ key r = k := by
  constructor
  · intro h
    exact ⟨mem_of_find?_eq_some h, by simpa using find?_some h⟩
  · rintro ⟨hr, rfl⟩
    cases h : t.lookup (key r) with
    | none =>
      have hno := find?_eq_none.mp h r hr
      simp at hno
    | some q =>
      have hq : key q = key r := by simpa using find?_some h
      rw [t.eq_of_key (mem_of_find?_eq_some h) hr hq]

/-- Nothing is found iff no row has the key. -/
theorem lookup_eq_none : t.lookup k = none ↔ ∀ r ∈ t.rows, key r ≠ k := by
  rw [lookup, find?_eq_none]
  simp

variable {t} in
theorem mem_of_lookup (h : t.lookup k = some r) : r ∈ t.rows := (t.lookup_eq_some.mp h).1

variable {t} in
/-- A row that is found has the key. -/
theorem key_of_lookup (h : t.lookup k = some r) : key r = k := (t.lookup_eq_some.mp h).2

theorem lookup_key (hr : r ∈ t.rows) : t.lookup (key r) = some r :=
  t.lookup_eq_some.mpr ⟨hr, rfl⟩

end Lookup

/-! ## Insertion -/

/-- Add a row with a new key. -/
def insert (r : ρ) (h : key r ∉ t.rows.map key) : Table κ ρ key where
  rows := t.rows ++ [r]
  nodup := by
    rw [List.map_append, List.nodup_append]
    refine ⟨t.nodup, List.nodup_singleton _, ?_⟩
    rintro a ha b hb rfl
    rw [List.map_singleton, List.mem_singleton] at hb
    exact h (hb ▸ ha)

/-- Add a row, unless its key is taken. -/
def insert? [DecidableEq κ] (r : ρ) : Option (Table κ ρ key) :=
  if h : key r ∈ t.rows.map key then none else some (t.insert r h)

/-- A row is inserted iff its key is fresh. -/
theorem insert?_eq_some [DecidableEq κ] {t' : Table κ ρ key} :
    t.insert? r = some t' ↔ ∃ h : key r ∉ t.rows.map key, t' = t.insert r h := by
  unfold insert?
  split_ifs with h
  · simp [h]
  · constructor
    · intro heq
      exact ⟨h, (some.inj heq).symm⟩
    · rintro ⟨_, rfl⟩
      rfl

variable {t} in
theorem mem_insert {h : key r ∉ t.rows.map key} :
    q ∈ (t.insert r h).rows ↔ q ∈ t.rows ∨ q = r := by
  simp [insert]

/-- What is found after an insertion. -/
theorem lookup_insert [DecidableEq κ] (h : key r ∉ t.rows.map key) (k : κ) :
    (t.insert r h).lookup k = if key r = k then some r else t.lookup k := by
  split_ifs with hk
  · rw [← hk, lookup_eq_some]
    exact ⟨mem_insert.mpr (.inr rfl), rfl⟩
  · rw [lookup, insert, find?_append, lookup]
    simp [hk]

/-! ## Replacement -/

/-- Replace the row of the same key. -/
def put [DecidableEq κ] (r : ρ) : Table κ ρ key where
  rows := t.rows.map fun q => if key q = key r then r else q
  nodup := by
    rw [List.map_map]
    have hkeys : key ∘ (fun q => if key q = key r then r else q) = key := by
      funext q
      show key (if key q = key r then r else q) = key q
      split_ifs with h
      · exact h.symm
      · rfl
    rw [hkeys]
    exact t.nodup

section Update

variable [DecidableEq κ]

/-- What is found after an update that keeps the keys. -/
theorem lookup_map {g : ρ → ρ} (hkey : ∀ r, key (g r) = key r)
    (h : ((t.rows.map g).map key).Nodup) (k : κ) :
    (Table.mk (t.rows.map g) h).lookup k = (t.lookup k).map g := by
  show (t.rows.map g).find? _ = (t.rows.find? _).map g
  rw [find?_map]
  have hcond : ((fun r => decide (key r = k)) ∘ g) = fun r => decide (key r = k) := by
    funext r
    simp [hkey]
  rw [hcond]

/-- What is found after a row is replaced. -/
theorem lookup_put (r : ρ) (k : κ) :
    (t.put r).lookup k = if key r = k then (t.lookup k).map fun _ => r else t.lookup k := by
  have hkey : ∀ q, key (if key q = key r then r else q) = key q := by
    intro q
    split_ifs with h
    · exact h.symm
    · rfl
  rw [put, t.lookup_map hkey]
  split_ifs with hk
  · cases h : t.lookup k with
    | none => rfl
    | some q =>
      rw [map_some, map_some, if_pos ((key_of_lookup h).trans hk.symm)]
  · cases h : t.lookup k with
    | none => rfl
    | some q =>
      rw [map_some, if_neg]
      rw [key_of_lookup h]
      exact fun h => hk h.symm

end Update

end Table

end Relational
