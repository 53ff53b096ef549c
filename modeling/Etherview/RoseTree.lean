import Mathlib.Data.List.Lex
import Mathlib.Data.List.Sort

/-! # Rose trees and the addresses of their nodes

    A finitely branching tree, and its nodes in preorder, each with the path of child
    indices that leads to it.  Indices are taken from an ordered type, which may have fewer
    indices in ascending order than a node has children.

    * `positions_sorted` — preorder is the lexicographic order of the paths;
    * `exists_parent` and `exists_child` — the paths below the root are exactly the
      extensions of a listed path by an index below its arity;
    * `countP_children` — hence the arity of a node counts its children in the list. -/

namespace RoseTree

open List

/-- A tree with a label at every node. -/
inductive Tree (α : Type) where
  | node (label : α) (children : List (Tree α))

/-- A node of a tree: its path, its label and its number of children. -/
structure Position (ι α : Type) where
  path : List ι
  label : α
  arity : Nat

section Positions

variable {ι α : Type} (index : Nat → ι)

mutual

/-- The nodes of a tree that hangs at a path, in preorder. -/
def positions : Tree α → List ι → List (Position ι α)
  | .node label children, path =>
    ⟨path, label, children.length⟩ :: forestPositions children path 0

/-- The nodes of the children from the `i`-th on. -/
def forestPositions : List (Tree α) → List ι → Nat → List (Position ι α)
  | [], _, _ => []
  | child :: rest, path, i =>
    positions child (path ++ [index i]) ++ forestPositions rest path (i + 1)

end

mutual

/-- Renaming the indices renames the paths. -/
theorem positions_map {κ : Type} (f : ι → κ) : ∀ (t : Tree α) (path : List ι),
    (positions index t path).map (fun pos => ⟨pos.path.map f, pos.label, pos.arity⟩)
      = positions (fun i => f (index i)) t (path.map f)
  | .node label children, path => by
      rw [positions, positions, map_cons, forestPositions_map f children path 0]

/-- The positions of a forest under a map of the indices. -/
theorem forestPositions_map {κ : Type} (f : ι → κ) : ∀ (ts : List (Tree α)) (path : List ι)
    (i : Nat),
    (forestPositions index ts path i).map (fun pos => ⟨pos.path.map f, pos.label, pos.arity⟩)
      = forestPositions (fun i => f (index i)) ts (path.map f) i
  | [], _, _ => rfl
  | child :: rest, path, i => by
      rw [forestPositions, forestPositions, map_append, positions_map f child,
        forestPositions_map f rest path (i + 1), map_append]
      rfl

end

mutual

/-- A node below the root extends a listed path by an index below the arity there. -/
theorem exists_parent : ∀ (t : Tree α) (path : List ι), ∀ pos ∈ positions index t path,
    pos.path = path ∨
      ∃ parent ∈ positions index t path, ∃ i < parent.arity,
        pos.path = parent.path ++ [index i]
  | .node label children, path => by
      intro pos hpos
      rcases mem_cons.mp hpos with rfl | hpos
      · exact .inl rfl
      · rcases exists_forest_parent children path 0 pos hpos with ⟨i, -, hi, heq⟩ | hparent
        · exact .inr ⟨_, mem_cons_self, i, by rwa [Nat.zero_add] at hi, heq⟩
        · obtain ⟨parent, hparent, i, hi, heq⟩ := hparent
          exact .inr ⟨parent, mem_cons_of_mem _ hparent, i, hi, heq⟩

/-- A position of a forest is a root or has a parent. -/
theorem exists_forest_parent : ∀ (ts : List (Tree α)) (path : List ι) (i : Nat),
    ∀ pos ∈ forestPositions index ts path i,
      (∃ j, i ≤ j ∧ j < i + ts.length ∧ pos.path = path ++ [index j]) ∨
        ∃ parent ∈ forestPositions index ts path i, ∃ j < parent.arity,
          pos.path = parent.path ++ [index j]
  | [], _, _ => by
      intro pos hpos
      cases hpos
  | child :: rest, path, i => by
      intro pos hpos
      rcases mem_append.mp hpos with hpos | hpos
      · rcases exists_parent child (path ++ [index i]) pos hpos with heq | hparent
        · exact .inl ⟨i, le_rfl, by simp, heq⟩
        · obtain ⟨parent, hparent, j, hj, heq⟩ := hparent
          exact .inr ⟨parent, mem_append_left _ hparent, j, hj, heq⟩
      · rcases exists_forest_parent rest path (i + 1) pos hpos
          with ⟨j, hlow, hhigh, heq⟩ | hparent
        · exact .inl ⟨j, by omega, by rw [length_cons]; omega, heq⟩
        · obtain ⟨parent, hparent, j, hj, heq⟩ := hparent
          exact .inr ⟨parent, mem_append_right _ hparent, j, hj, heq⟩

end

theorem exists_root : ∀ (t : Tree α) (path : List ι), ∃ pos ∈ positions index t path,
    pos.path = path
  | .node label children, path => by
      rw [positions]
      exact ⟨_, mem_cons_self, rfl⟩

/-- Every child that a forest starts with is listed. -/
theorem exists_forest_child : ∀ (ts : List (Tree α)) (path : List ι) (i j : Nat), i ≤ j →
    j < i + ts.length → ∃ pos ∈ forestPositions index ts path i, pos.path = path ++ [index j]
  | [], _, i, j => by
      intro hlow hhigh
      rw [length_nil] at hhigh
      omega
  | child :: rest, path, i, j => by
      intro hlow hhigh
      rw [forestPositions]
      by_cases heq : j = i
      · obtain ⟨pos, hpos, hpath⟩ := exists_root index child (path ++ [index i])
        exact ⟨pos, mem_append_left _ hpos, heq ▸ hpath⟩
      · rw [length_cons] at hhigh
        obtain ⟨pos, hpos, hpath⟩ :=
          exists_forest_child rest path (i + 1) j (by omega) (by omega)
        exact ⟨pos, mem_append_right _ hpos, hpath⟩

mutual

/-- Every index below the arity of a listed node leads to a listed node. -/
theorem exists_child : ∀ (t : Tree α) (path : List ι), ∀ parent ∈ positions index t path,
    ∀ i < parent.arity, ∃ pos ∈ positions index t path, pos.path = parent.path ++ [index i]
  | .node label children, path => by
      intro parent hparent i hi
      rcases mem_cons.mp hparent with rfl | hparent
      · obtain ⟨pos, hpos, heq⟩ := exists_forest_child index children path 0 i (Nat.zero_le i)
          (by rw [Nat.zero_add]; exact hi)
        exact ⟨pos, mem_cons_of_mem _ hpos, heq⟩
      · obtain ⟨pos, hpos, heq⟩ := exists_grandchild children path 0 parent hparent i hi
        exact ⟨pos, mem_cons_of_mem _ hpos, heq⟩

/-- The children of a position of a forest are in the forest. -/
theorem exists_grandchild : ∀ (ts : List (Tree α)) (path : List ι) (i : Nat),
    ∀ parent ∈ forestPositions index ts path i, ∀ j < parent.arity,
      ∃ pos ∈ forestPositions index ts path i, pos.path = parent.path ++ [index j]
  | [], _, _ => by
      intro parent hparent
      cases hparent
  | child :: rest, path, i => by
      intro parent hparent j hj
      rcases mem_append.mp hparent with hparent | hparent
      · obtain ⟨pos, hpos, heq⟩ := exists_child child (path ++ [index i]) parent hparent j hj
        exact ⟨pos, mem_append_left _ hpos, heq⟩
      · obtain ⟨pos, hpos, heq⟩ := exists_grandchild rest path (i + 1) parent hparent j hj
        exact ⟨pos, mem_append_right _ hpos, heq⟩

end

mutual

theorem prefix_path : ∀ (t : Tree α) (path : List ι), ∀ pos ∈ positions index t path,
    path <+: pos.path
  | .node label children, path => by
      intro pos hpos
      rcases mem_cons.mp hpos with rfl | hpos
      · exact prefix_refl _
      · obtain ⟨j, -, -, hprefix⟩ := prefix_forest_path children path 0 pos hpos
        exact (prefix_append _ _).trans hprefix

/-- The paths of a forest start with the path of one of its trees. -/
theorem prefix_forest_path : ∀ (ts : List (Tree α)) (path : List ι) (i : Nat),
    ∀ pos ∈ forestPositions index ts path i,
      ∃ j, i ≤ j ∧ j < i + ts.length ∧ path ++ [index j] <+: pos.path
  | [], _, _ => by
      intro pos hpos
      cases hpos
  | child :: rest, path, i => by
      intro pos hpos
      rw [length_cons]
      rcases mem_append.mp hpos with hpos | hpos
      · exact ⟨i, le_rfl, by omega, prefix_path child (path ++ [index i]) pos hpos⟩
      · obtain ⟨j, hlow, hhigh, hprefix⟩ := prefix_forest_path rest path (i + 1) pos hpos
        exact ⟨j, by omega, by omega, hprefix⟩

end

/-- What holds of the root's path and of every index that leads to a child holds along all
    paths. -/
theorem forall_mem_path {P : ι → Prop} {t : Tree α} {path : List ι}
    (hpath : ∀ i ∈ path, P i)
    (hchild : ∀ parent ∈ positions index t path, ∀ i < parent.arity, P (index i)) :
    ∀ pos ∈ positions index t path, ∀ i ∈ pos.path, P i := by
  intro pos hpos
  -- a parent's path is shorter
  induction hlength : pos.path.length using Nat.strong_induction_on generalizing pos with
  | _ n ih =>
    rcases exists_parent index t path pos hpos with heq | ⟨parent, hparent, j, hj, heq⟩
    · rw [heq]
      exact hpath
    · rw [heq, length_append, length_singleton] at hlength
      rw [heq]
      refine forall_mem_append.mpr ⟨ih _ (by omega) parent hparent rfl, ?_⟩
      intro i hi
      rw [mem_singleton.mp hi]
      exact hchild parent hparent j hj

/-- A path is a child of another if dropping its last index gives the other. -/
def IsChildOf (parent path : List ι) : Prop := path ≠ [] ∧ path.dropLast = parent

instance [DecidableEq ι] (parent path : List ι) : Decidable (IsChildOf parent path) :=
  inferInstanceAs (Decidable (_ ∧ _))

theorem isChildOf_concat {parent path : List ι} {i : ι} :
    IsChildOf parent (path ++ [i]) ↔ path = parent := by
  rw [IsChildOf, dropLast_concat]
  exact and_iff_right (append_ne_nil_of_right_ne_nil _ (cons_ne_nil i []))

section Sorted

variable [LinearOrder ι] {n : Nat}

/-- Paths that branch at one node are ordered as the indices are. -/
theorem lt_of_branch {path left right : List ι} {a b : ι} (hab : a < b)
    (hleft : path ++ [a] <+: left) (hright : path ++ [b] <+: right) : left < right := by
  obtain ⟨l, rfl⟩ := hleft
  obtain ⟨r, rfl⟩ := hright
  rw [append_assoc, append_assoc]
  exact append_left_lt (cons_lt_cons_iff.mpr (.inl hab))

theorem lt_of_extension {path extended : List ι} {a : ι} (h : path ++ [a] <+: extended) :
    path < extended := by
  obtain ⟨l, rfl⟩ := h
  rw [append_assoc]
  calc path = path ++ [] := (append_nil path).symm
    _ < path ++ ([a] ++ l) := append_left_lt (nil_lt_cons a l)

variable {index}

mutual

/-- **Preorder is the order of the paths**, as long as the indices suffice. -/
theorem positions_sorted (hindex : ∀ i j, i < j → j < n → index i < index j) :
    ∀ (t : Tree α) (path : List ι),
    (∀ pos ∈ positions index t path, pos.arity ≤ n) →
      (positions index t path).Pairwise fun left right => left.path < right.path
  | .node label children, path => by
      intro hbound
      obtain ⟨hhead, htail⟩ := forall_mem_cons.mp hbound
      refine pairwise_cons.mpr ⟨?_, ?_⟩
      · intro pos hpos
        obtain ⟨j, -, -, hprefix⟩ := prefix_forest_path index children path 0 pos hpos
        exact lt_of_extension hprefix
      · exact forestPositions_sorted hindex children path 0
          (by rw [Nat.zero_add]; exact hhead) htail

/-- The paths of a forest increase. -/
theorem forestPositions_sorted (hindex : ∀ i j, i < j → j < n → index i < index j) :
    ∀ (ts : List (Tree α)) (path : List ι) (i : Nat),
    i + ts.length ≤ n → (∀ pos ∈ forestPositions index ts path i, pos.arity ≤ n) →
      (forestPositions index ts path i).Pairwise fun left right => left.path < right.path
  | [], _, _ => by
      intro _ _
      exact Pairwise.nil
  | child :: rest, path, i => by
      intro hroom hbound
      rw [length_cons] at hroom
      rw [forestPositions] at hbound ⊢
      obtain ⟨hchild, hrest⟩ := forall_mem_append.mp hbound
      refine pairwise_append.mpr ⟨?_, ?_, ?_⟩
      · exact positions_sorted hindex child (path ++ [index i]) hchild
      · exact forestPositions_sorted hindex rest path (i + 1) (by omega) hrest
      · -- everything below this child comes before everything below the later ones
        intro left hleft right hright
        obtain ⟨j, hlow, hhigh, hprefix⟩ :=
          prefix_forest_path index rest path (i + 1) right hright
        exact lt_of_branch (hindex i j (by omega) (by omega))
          (prefix_path index child (path ++ [index i]) left hleft) hprefix

end

section

variable (hindex : ∀ i j, i < j → j < n → index i < index j) (t : Tree α) (path : List ι)
  (hbound : ∀ pos ∈ positions index t path, pos.arity ≤ n)
include hindex hbound

theorem paths_nodup : ((positions index t path).map Position.path).Nodup :=
  pairwise_map.mpr ((positions_sorted hindex t path hbound).imp ne_of_lt)

/-- **The arity of a node counts the paths below it.** -/
theorem countP_children : ∀ parent ∈ positions index t path,
      ((positions index t path).map Position.path).countP (fun q => IsChildOf parent.path q)
        = parent.arity := by
  intro parent hparent
  have hnodup := paths_nodup hindex t path hbound
  have hperm : (((positions index t path).map Position.path).filter
        fun q => IsChildOf parent.path q).Perm
      ((range parent.arity).map fun i => parent.path ++ [index i]) := by
    refine (perm_ext_iff_of_nodup (hnodup.filter _) ?_).mpr ?_
    · refine Nodup.map_on ?_ nodup_range
      intro i hi j hj heq
      have hindices : index i = index j := by simpa using heq
      have hn := hbound parent hparent
      rw [mem_range] at hi hj
      rcases lt_trichotomy i j with hlt | rfl | hlt
      · exact absurd hindices (ne_of_lt (hindex i j hlt (by omega)))
      · rfl
      · exact absurd hindices.symm (ne_of_lt (hindex j i hlt (by omega)))
    · intro q
      rw [mem_filter, mem_map, decide_eq_true_iff, mem_map]
      constructor
      · rintro ⟨⟨pos, hpos, rfl⟩, hchild⟩
        rcases exists_parent index t path pos hpos with heq | ⟨other, hother, i, hi, heq⟩
        · -- the root is no child: all paths are at least as long as its own
          have hlength := (prefix_path index t path parent hparent).length_le
          have hshort := congrArg length hchild.2
          have hpositive := length_pos_of_ne_nil hchild.1
          rw [length_dropLast, heq] at hshort
          rw [heq] at hpositive
          omega
        · rw [heq] at hchild ⊢
          have hsame : other = parent :=
            inj_on_of_nodup_map hnodup hother hparent (isChildOf_concat.mp hchild)
          subst hsame
          exact ⟨i, mem_range.mpr hi, rfl⟩
      · rintro ⟨i, hi, rfl⟩
        obtain ⟨pos, hpos, heq⟩ := exists_child index t path parent hparent i (mem_range.mp hi)
        exact ⟨⟨pos, hpos, heq⟩, isChildOf_concat.mpr rfl⟩
  rw [countP_eq_length_filter, hperm.length_eq, length_map, length_range]

end

end Sorted

end Positions

end RoseTree
