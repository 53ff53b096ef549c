import Mathlib.Data.List.Sort
import Mathlib.Data.List.Nodup

/-! # Maps that are walked in an arbitrary order

    A map is the list of its entries in the order a walk meets them, with one entry
    per key.  A reader that must not depend on the walk is a function that takes
    equal values on permuted entry lists; a reader that sorts the keys first walks
    `sortedEntries`. -/

/-- A map with the order in which it is walked. -/
structure GoMap (K V : Type) where
  entries : List (K × V)
  nodup : (entries.map Prod.fst).Nodup

namespace GoMap

open List Prod

variable {K V : Type}

/-- The map without entries. -/
def empty : GoMap K V := ⟨[], List.nodup_nil⟩

instance : Inhabited (GoMap K V) := ⟨empty⟩

/-- Two walks of one map. -/
def Same (m n : GoMap K V) : Prop := m.entries.Perm n.entries

/-- The number of entries. -/
def size (m : GoMap K V) : Nat := m.entries.length

/-- An order to walk something in. -/
def Order (α : Type) : Type := { f : List α → List α // ∀ l, (f l).Perm l }

theorem Order.perm {α : Type} (order : Order α) (l : List α) : (order.1 l).Perm l := order.2 l

section Lookup

variable [DecidableEq K]

/-- The first value stored under a key. -/
def find (key : K) : List (K × V) → Option V
  | [] => none
  | (k, v) :: rest => if k = key then some v else find key rest

/-- The value stored under a key. -/
def get? (m : GoMap K V) (key : K) : Option V := find key m.entries

theorem find_cons_self (key : K) (v : V) (rest : List (K × V)) :
    find key ((key, v) :: rest) = some v := if_pos rfl

variable {key k : K}

theorem find_cons_ne (h : k ≠ key) (v : V) (rest : List (K × V)) :
    find key ((k, v) :: rest) = find key rest := if_neg h

variable {entries : List (K × V)}

/-- Where every key occurs once, a key finds the value it is paired with. -/
theorem find_eq_some (h : (entries.map fst).Nodup)
    {v : V} : find key entries = some v ↔ (key, v) ∈ entries := by
  induction entries with
  | nil => exact ⟨fun h => (nomatch h), fun h => (nomatch h)⟩
  | cons e rest ih =>
    obtain ⟨k, w⟩ := e
    obtain ⟨hnot, hrest⟩ := nodup_cons.mp h
    by_cases hk : k = key
    · subst hk
      rw [find_cons_self, mem_cons]
      constructor
      · intro hv
        cases hv
        exact .inl rfl
      · rintro (heq | hmem)
        · cases heq
          rfl
        · exact absurd (mem_map.mpr ⟨_, hmem, rfl⟩) hnot
    · rw [find_cons_ne hk, ih hrest, mem_cons]
      refine (or_iff_right ?_).symm
      intro heq
      exact hk (congrArg fst heq).symm

theorem get?_eq_some (m : GoMap K V) {v : V} :
    m.get? key = some v ↔ (key, v) ∈ m.entries := find_eq_some m.nodup

theorem value_unique (m : GoMap K V) {v w : V} (hv : (key, v) ∈ m.entries)
    (hw : (key, w) ∈ m.entries) : v = w := by
  rw [← m.get?_eq_some] at hv hw
  exact Option.some.inj (hv.symm.trans hw)

/-- Store a value under a key, in the place of an older one. -/
def put (key : K) (v : V) : List (K × V) → List (K × V)
  | [] => [(key, v)]
  | (k, w) :: rest => if k = key then (key, v) :: rest else (k, w) :: put key v rest

theorem put_cons_self (key : K) (v w : V) (rest : List (K × V)) :
    put key v ((key, w) :: rest) = (key, v) :: rest := if_pos rfl

/-- Putting behind the first key. -/
theorem put_cons_ne (h : k ≠ key) (v w : V) (rest : List (K × V)) :
    put key v ((k, w) :: rest) = (k, w) :: put key v rest := if_neg h

section

variable (key : K) (v : V)

/-- The keys after putting. -/
theorem mem_keys_put (entries : List (K × V)) (k : K) :
    k ∈ (put key v entries).map fst ↔ k = key ∨ k ∈ entries.map fst := by
  induction entries with
  | nil => simp [put]
  | cons e rest ih =>
    obtain ⟨a, w⟩ := e
    by_cases ha : a = key
    · subst ha
      rw [put_cons_self]
      simp
    · rw [put_cons_ne ha, map_cons, mem_cons, ih, map_cons, mem_cons]
      exact or_left_comm

/-- Putting keeps the keys distinct. -/
theorem nodup_put (h : (entries.map fst).Nodup) : ((put key v entries).map fst).Nodup := by
  induction entries with
  | nil => simp [put]
  | cons e rest ih =>
    obtain ⟨a, w⟩ := e
    obtain ⟨hnot, hrest⟩ := nodup_cons.mp h
    by_cases ha : a = key
    · subst ha
      rw [put_cons_self]
      exact nodup_cons.mpr ⟨hnot, hrest⟩
    · rw [put_cons_ne ha]
      refine nodup_cons.mpr ⟨?_, ih hrest⟩
      intro hmem
      rcases (mem_keys_put key v rest a).mp hmem with heq | hmem
      · exact ha heq
      · exact hnot hmem

/-- What was put is found. -/
theorem find_put_self (entries : List (K × V)) : find key (put key v entries) = some v := by
  induction entries with
  | nil => exact find_cons_self key v []
  | cons e rest ih =>
    obtain ⟨a, w⟩ := e
    by_cases ha : a = key
    · subst ha
      rw [put_cons_self, find_cons_self]
    · rw [put_cons_ne ha, find_cons_ne ha, ih]

end

/-- Putting leaves the other keys. -/
theorem find_put_ne (h : k ≠ key) (v : V) (entries : List (K × V)) :
    find k (put key v entries) = find k entries := by
  induction entries with
  | nil => exact find_cons_ne h.symm v []
  | cons e rest ih =>
    obtain ⟨a, w⟩ := e
    by_cases ha : a = key
    · subst ha
      rw [put_cons_self, find_cons_ne h.symm, find_cons_ne h.symm]
    · rw [put_cons_ne ha]
      by_cases hak : a = k
      · subst hak
        rw [find_cons_self, find_cons_self]
      · rw [find_cons_ne hak, find_cons_ne hak, ih]

/-- The map with one value stored. -/
def insert (m : GoMap K V) (key : K) (v : V) : GoMap K V :=
  ⟨put key v m.entries, nodup_put key v m.nodup⟩

/-- A fresh key is put at the end. -/
theorem put_of_fresh {v : V}
    (h : key ∉ entries.map fst) : put key v entries = entries ++ [(key, v)] := by
  induction entries with
  | nil => rfl
  | cons e rest ih =>
    obtain ⟨k, w⟩ := e
    obtain ⟨hk, hrest⟩ := ne_and_not_mem_of_not_mem_cons h
    rw [put_cons_ne hk.symm, ih hrest, cons_append]

/-- Putting adds one entry at most. -/
theorem length_put_le (key : K) (v : V) (entries : List (K × V)) :
    (put key v entries).length ≤ entries.length + 1 := by
  induction entries with
  | nil => exact le_rfl
  | cons e rest ih =>
    obtain ⟨k, w⟩ := e
    rw [put]
    split
    · exact Nat.le_succ _
    · exact Nat.succ_le_succ ih

/-- Inserting adds one entry at most. -/
theorem size_insert_le (m : GoMap K V) (key : K) (v : V) : (m.insert key v).size ≤ m.size + 1 :=
  length_put_le key v m.entries

/-- A map filled entry by entry. -/
def insertAll (m : GoMap K V) (entries : List (K × V)) : GoMap K V :=
  entries.foldl (fun m e => m.insert e.1 e.2) m

/-- Inserting a list adds at most its length. -/
theorem size_insertAll_le (m : GoMap K V) (entries : List (K × V)) :
    (m.insertAll entries).size ≤ m.size + entries.length := by
  induction entries generalizing m with
  | nil => exact le_rfl
  | cons e rest ih =>
    have hrest := ih (m.insert e.1 e.2)
    have hfirst := m.size_insert_le e.1 e.2
    rw [length_cons]
    exact le_trans hrest (by omega)

/-- Fresh entries are inserted in their order. -/
theorem entries_insertAll {m : GoMap K V} (h : ((m.entries ++ entries).map Prod.fst).Nodup) :
    (m.insertAll entries).entries = m.entries ++ entries := by
  induction entries generalizing m with
  | nil => exact (append_nil _).symm
  | cons e rest ih =>
    have hfresh : e.1 ∉ m.entries.map Prod.fst := by
      rw [map_append, map_cons] at h
      intro hmem
      exact (nodup_append.mp h).2.2 e.1 hmem e.1 mem_cons_self rfl
    have hentries : (m.insert e.1 e.2).entries = m.entries ++ [e] := put_of_fresh hfresh
    have hnext := @ih (m.insert e.1 e.2) (by rw [hentries, append_assoc]; exact h)
    rw [hentries, append_assoc] at hnext
    exact hnext

/-- What was inserted is read. -/
@[simp] theorem get?_insert_self (m : GoMap K V) (key : K) (v : V) :
    (m.insert key v).get? key = some v := find_put_self key v m.entries

/-- Inserting leaves the other keys. -/
theorem get?_insert_ne (m : GoMap K V) (h : k ≠ key) (v : V) :
    (m.insert key v).get? k = m.get? k := find_put_ne h v m.entries

end Lookup

section Sorted

variable [LinearOrder K]

/-- The entries in the order of their keys. -/
def sortedEntries (m : GoMap K V) : List (K × V) :=
  m.entries.insertionSort fun a b => a.1 ≤ b.1

/-- Sorting keeps the entries. -/
@[simp] theorem mem_sortedEntries (m : GoMap K V) (e : K × V) :
    e ∈ m.sortedEntries ↔ e ∈ m.entries :=
  (perm_insertionSort _ m.entries).mem_iff

end Sorted

end GoMap
