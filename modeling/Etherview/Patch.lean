import Mathlib.Data.List.Basic
import Mathlib.Tactic.Common

/-! # Overlaying regions of one list on another

    A region is a start with a length.  `write` overwrites a region of a list and
    `window` reads one.  Copying windows of one list (the source) into another of
    the same length (the base) leaves a mixture of the two: the source inside the
    copied regions, the base outside (`Mix`).  Which regions were copied, in which
    order and how they overlap does not matter; the mixture is the source exactly
    when the two lists agree outside (`Mix.eq_iff`).

    Regions tile an interval when they are apart and cover exactly its positions
    (`Tiles`).  A sweep over regions sorted by their starts that asks every region to
    start where the one before ended decides it (`sweep_eq_some`). -/

namespace Patch

open List

variable {α : Type}

/-- A start with a length. -/
structure Region where
  start : Nat
  length : Nat
deriving DecidableEq, Repr

namespace Region

/-- The first position behind a region. -/
def stop (r : Region) : Nat := r.start + r.length

/-- The positions of a region. -/
def Has (r : Region) (i : Nat) : Prop := r.start ≤ i ∧ i < r.stop

instance (r : Region) (i : Nat) : Decidable (r.Has i) := inferInstanceAs (Decidable (_ ∧ _))

/-- Two regions of which one ends where the other starts, or before. -/
def Apart (r s : Region) : Prop := r.stop ≤ s.start ∨ s.stop ≤ r.start

instance (r s : Region) : Decidable (r.Apart s) := inferInstanceAs (Decidable (_ ∨ _))

variable {r s : Region}

theorem Apart.symm (h : r.Apart s) : s.Apart r := Or.symm h

/-- Regions apart share no index. -/
theorem Apart.not_has (h : r.Apart s) {i : Nat} (hr : r.Has i) : ¬ s.Has i := by
  intro hs
  have h1 := hr.1
  have h2 := hr.2
  have h3 := hs.1
  have h4 := hs.2
  rcases h with h | h <;> omega

end Region

/-- The part of a list that a region covers. -/
def window (l : List α) (r : Region) : List α := (l.drop r.start).take r.length

/-- A list with a part overwritten from `start` on. -/
def write (l : List α) (start : Nat) (v : List α) : List α :=
  l.take start ++ v ++ l.drop (start + v.length)

variable {r : Region} {l : List α}

theorem length_window (h : r.stop ≤ l.length) : (window l r).length = r.length := by
  have : r.start + r.length ≤ l.length := h
  rw [window, length_take, length_drop]
  omega

theorem getElem?_window (l : List α) (r : Region) (i : Nat) :
    (window l r)[i]? = if i < r.length then l[r.start + i]? else none := by
  rw [window, getElem?_take]
  split
  · rw [getElem?_drop]
  · rfl

variable {v : List α} {start : Nat}

theorem length_write (h : start + v.length ≤ l.length) : (write l start v).length = l.length := by
  rw [write, length_append, length_append, length_take, length_drop]
  omega

/-- The elements after writing. -/
theorem getElem?_write (h : start + v.length ≤ l.length) (i : Nat) :
    (write l start v)[i]? = if start ≤ i ∧ i < start + v.length then v[i - start]?
      else l[i]? := by
  have hlen : (l.take start).length = start := by
    rw [length_take]
    omega
  rw [write, append_assoc]
  by_cases hlo : start ≤ i
  · rw [getElem?_append_right (by omega), hlen]
    by_cases hhi : i < start + v.length
    · rw [if_pos ⟨hlo, hhi⟩, getElem?_append_left (by omega)]
    · rw [if_neg (fun hc => hhi hc.2), getElem?_append_right (by omega), getElem?_drop]
      congr 1
      omega
  · rw [if_neg (fun hc => hlo hc.1), getElem?_append_left (by omega),
      getElem?_take_of_lt (by omega)]

/-- Writing into the front of a list. -/
theorem write_append (h : start + v.length ≤ l.length)
    (tail : List α) : write (l ++ tail) start v = write l start v ++ tail := by
  rw [write, write, take_append_of_le_length (by omega), drop_append_of_le_length h]
  simp only [append_assoc]

/-- Two windows of one region are equal iff the lists agree inside it. -/
theorem window_eq_iff {m : List α} :
    window l r = window m r ↔ ∀ i, r.Has i → l[i]? = m[i]? := by
  constructor
  · intro h i hi
    have hlo := hi.1
    have hhi := hi.2
    unfold Region.stop at hhi
    have hget := congrArg (fun w : List α => w[i - r.start]?) h
    simp only [getElem?_window, if_pos (show i - r.start < r.length by omega)] at hget
    rwa [show r.start + (i - r.start) = i by omega] at hget
  · intro h
    refine ext_getElem? (fun i => ?_)
    rw [getElem?_window, getElem?_window]
    by_cases hi : i < r.length
    · rw [if_pos hi, if_pos hi]
      exact h _ ⟨Nat.le_add_right _ _, by unfold Region.stop; omega⟩
    · rw [if_neg hi, if_neg hi]

theorem window_take {n : Nat} (h : r.stop ≤ n) : window (l.take n) r = window l r := by
  refine window_eq_iff.mpr (fun i hi => ?_)
  exact getElem?_take_of_lt (Nat.lt_of_lt_of_le hi.2 h)

/-! ## Mixtures -/

/-- The positions some region of a list has. -/
def Covered (regions : List Region) (i : Nat) : Prop := ∃ r ∈ regions, r.Has i

instance (regions : List Region) (i : Nat) : Decidable (Covered regions i) :=
  inferInstanceAs (Decidable (∃ r ∈ regions, r.Has i))

variable {regions : List Region}

theorem covered_cons {i : Nat} : Covered (r :: regions) i ↔ r.Has i ∨ Covered regions i := by
  simp [Covered]

/-- Two lists agree on the positions of the second outside some regions. -/
def AgreeOutside (regions : List Region) (source base : List α) : Prop :=
  ∀ i < base.length, ¬ Covered regions i → source[i]? = base[i]?

instance [DecidableEq α] (regions : List Region) (source base : List α) :
    Decidable (AgreeOutside regions source base) :=
  inferInstanceAs (Decidable (∀ i < base.length, ¬ Covered regions i → source[i]? = base[i]?))

/-- `l` is `source` inside the regions and `base` outside. -/
structure Mix (source base : List α) (regions : List Region) (l : List α) : Prop where
  length_eq : l.length = base.length
  at_index : ∀ i < base.length, l[i]? = if Covered regions i then source[i]? else base[i]?

theorem Mix.base (source base : List α) : Mix source base [] base where
  length_eq := rfl
  at_index := by
    intro i _
    rw [if_neg]
    rintro ⟨r, hr, -⟩
    cases hr

section Steps

variable {source base l : List α} {regions : List Region}

section

variable (h : Mix source base regions l)
include h

/-- One region more is copied. -/
theorem Mix.write (hsource : r.stop ≤ source.length) (hbase : r.stop ≤ base.length) :
    Mix source base (r :: regions) (write l r.start (window source r)) := by
  have hlen : r.start + (window source r).length = r.stop := by
    rw [length_window hsource]
    rfl
  have hfit : r.start + (window source r).length ≤ l.length := by
    rw [hlen, h.length_eq]
    exact hbase
  refine ⟨(length_write hfit).trans h.length_eq, ?_⟩
  intro i hi
  rw [getElem?_write hfit, hlen]
  by_cases hr : r.Has i
  · rw [if_pos (show r.start ≤ i ∧ i < r.stop from hr), if_pos (covered_cons.mpr (.inl hr)),
      getElem?_window]
    have hlo := hr.1
    have hhi := hr.2
    unfold Region.stop at hhi
    rw [if_pos (by omega), show r.start + (i - r.start) = i by omega]
  · rw [if_neg (show ¬ (r.start ≤ i ∧ i < r.stop) from hr), h.at_index i hi]
    by_cases hc : Covered regions i
    · rw [if_pos hc, if_pos (covered_cons.mpr (.inr hc))]
    · rw [if_neg hc, if_neg (fun hcr => (covered_cons.mp hcr).elim hr hc)]

variable {regions' : List Region}

/-- Only the set of regions counts. -/
theorem Mix.congr
    (heq : ∀ i, Covered regions i ↔ Covered regions' i) : Mix source base regions' l := by
  refine ⟨h.length_eq, fun i hi => ?_⟩
  rw [h.at_index i hi]
  simp only [heq i]

/-- Copy the windows of some regions, one after the other. -/
def copyAll (source : List α) (copied : List Region) (l : List α) : List α :=
  copied.foldl (fun l r => Patch.write l r.start (window source r)) l

/-- A list of regions more is copied. -/
theorem Mix.copyAll {copied : List Region}
    (hsource : base.length ≤ source.length) (hbase : ∀ r ∈ copied, r.stop ≤ base.length) :
    Mix source base (regions ++ copied) (copyAll source copied l) := by
  induction copied generalizing regions l with
  | nil =>
    rw [append_nil]
    exact h
  | cons r rest ih =>
    have hr := hbase r mem_cons_self
    have hstep := ih (h.write (Nat.le_trans hr hsource) hr)
      (fun s hs => hbase s (mem_cons_of_mem _ hs))
    refine hstep.congr (fun i => ?_)
    simp only [Covered, mem_append, mem_cons, or_assoc, or_left_comm]

/-- Two mixtures of the same lists over the same positions are equal. -/
theorem Mix.unique {m : List α}
    (h' : Mix source base regions' m) (heq : ∀ i, Covered regions i ↔ Covered regions' i) :
    l = m := by
  refine ext_getElem? (fun i => ?_)
  by_cases hi : i < base.length
  · rw [(h.congr heq).at_index i hi, h'.at_index i hi]
  · rw [getElem?_eq_none (by rw [h.length_eq]; omega),
      getElem?_eq_none (by rw [h'.length_eq]; omega)]

/-- **A mixture is the source iff source and base agree outside the regions.** -/
theorem Mix.eq_iff (hlen : base.length ≤ source.length) :
    source.take base.length = l ↔ AgreeOutside regions source base := by
  have hat : ∀ i < base.length, (source.take base.length)[i]? = source[i]? := by
    intro i hi
    exact getElem?_take_of_lt hi
  constructor
  · intro heq i hi hc
    have hget := h.at_index i hi
    rw [if_neg hc, ← heq, hat i hi] at hget
    exact hget
  · intro hag
    refine ext_getElem? (fun i => ?_)
    by_cases hi : i < base.length
    · rw [hat i hi, h.at_index i hi]
      by_cases hc : Covered regions i
      · rw [if_pos hc]
      · rw [if_neg hc]
        exact hag i hi hc
    · rw [getElem?_eq_none (by rw [length_take]; omega),
        getElem?_eq_none (by rw [h.length_eq]; omega)]

/-- **Two lists overlaid with one source are equal iff they agree outside.** -/
theorem Mix.overlaid_eq_iff {other m : List α}
    (h' : Mix source other regions m) (hlen : base.length = other.length) :
    l = m ↔ AgreeOutside regions base other := by
  constructor
  · rintro rfl i hi hc
    have hbase := h.at_index i (hlen ▸ hi)
    rw [h'.at_index i hi, if_neg hc, if_neg hc] at hbase
    exact hbase.symm
  · intro hag
    refine ext_getElem? (fun i => ?_)
    by_cases hi : i < other.length
    · rw [h.at_index i (hlen ▸ hi), h'.at_index i hi]
      by_cases hc : Covered regions i
      · rw [if_pos hc, if_pos hc]
      · rw [if_neg hc, if_neg hc]
        exact hag i hi hc
    · rw [getElem?_eq_none (by rw [h.length_eq]; omega),
        getElem?_eq_none (by rw [h'.length_eq]; omega)]

end

end Steps

/-! ## Tilings -/

/-- Regions apart that cover the positions from `first` up to `last`, and no others. -/
structure Tiles (regions : List Region) (first last : Nat) : Prop where
  le : first ≤ last
  apart : regions.Pairwise Region.Apart
  covered : ∀ i, Covered regions i ↔ first ≤ i ∧ i < last

/-- Every region has to start where the one before ended; the end of the last one. -/
def sweep : Nat → List Region → Option Nat
  | size, [] => some size
  | size, span :: rest => if span.start ≠ size then none else sweep (size + span.length) rest

variable {first last : Nat}

/-- Only the set of regions counts, with how often each occurs. -/
theorem Tiles.perm {regions' : List Region}
    (h : Tiles regions first last) (hperm : regions.Perm regions') : Tiles regions' first last where
  le := h.le
  apart := (hperm.pairwise_iff (fun h => Region.Apart.symm h)).mp h.apart
  covered := by
    intro i
    rw [← h.covered i]
    unfold Covered
    simp only [hperm.mem_iff]

/-- A region that is not empty starts inside the interval that is tiled. -/
theorem Tiles.start_mem (h : Tiles regions first last)
    (hr : r ∈ regions) (hpos : 0 < r.length) : first ≤ r.start ∧ r.stop ≤ last := by
  have hstart := (h.covered r.start).mp ⟨r, hr, Nat.le.refl, by unfold Region.stop; omega⟩
  have hend := (h.covered (r.stop - 1)).mp
    ⟨r, hr, by unfold Region.stop; omega, by unfold Region.stop; omega⟩
  exact ⟨hstart.1, by omega⟩

variable {rest : List Region} {span : Region}

/-- A region in front of a tiling. -/
theorem Tiles.cons (h : Tiles rest span.stop last) (hpos : ∀ r ∈ rest, 0 < r.length) :
    Tiles (span :: rest) span.start last where
  le := Nat.le_trans (Nat.le_add_right _ _) h.le
  apart := pairwise_cons.mpr ⟨fun r hr => .inl (h.start_mem hr (hpos r hr)).1, h.apart⟩
  covered := by
    intro i
    have hle := h.le
    rw [covered_cons, h.covered i]
    unfold Region.Has
    have hstop : span.start ≤ span.stop := Nat.le_add_right _ _
    omega

/-- The region with the smallest start is the first of a tiling, and the others tile
    the rest. -/
theorem Tiles.uncons (h : Tiles (span :: rest) first last) (hpos : 0 < span.length)
    (hleast : ∀ r ∈ rest, span.start ≤ r.start) :
    span.start = first ∧ Tiles rest span.stop last := by
  obtain ⟨hlo, hhi⟩ := h.start_mem mem_cons_self hpos
  have hstop : span.stop = span.start + span.length := rfl
  have hstart : span.start = first := by
    -- the first position is covered, by a region that starts no earlier than `span`
    obtain ⟨r, hr, hhas⟩ := (h.covered first).mpr ⟨Nat.le.refl, by omega⟩
    have hle : span.start ≤ r.start := by
      rcases mem_cons.mp hr with rfl | hr
      · exact Nat.le.refl
      · exact hleast r hr
    have hge := hhas.1
    omega
  obtain ⟨hspan, hrest⟩ := pairwise_cons.mp h.apart
  refine ⟨hstart, ⟨hhi, hrest, fun i => ?_⟩⟩
  have hi := h.covered i
  rw [covered_cons] at hi
  constructor
  · intro hc
    obtain ⟨r, hr, hhas⟩ := hc
    have hnot : ¬ span.Has i := (hspan r hr).symm.not_has hhas
    have hin := hi.mp (.inr ⟨r, hr, hhas⟩)
    refine ⟨?_, hin.2⟩
    by_contra hlt
    exact hnot ⟨by omega, by omega⟩
  · rintro ⟨hge, hlt⟩
    rcases hi.mpr ⟨by omega, hlt⟩ with hhas | hc
    · exact absurd hhas.2 (by omega)
    · exact hc

/-- **The sweep decides tilings**, over sorted regions none of which is empty. -/
theorem sweep_eq_some (hsorted : regions.Pairwise fun r s => r.start ≤ s.start)
    (hpos : ∀ r ∈ regions, 0 < r.length) :
    sweep first regions = some last ↔ Tiles regions first last := by
  induction regions generalizing first with
  | nil =>
    rw [sweep]
    constructor
    · rintro h
      cases h
      refine ⟨Nat.le.refl, Pairwise.nil, fun i => ⟨?_, fun h => by omega⟩⟩
      rintro ⟨r, hr, -⟩
      cases hr
    · intro h
      have hle := h.le
      have hnot : ¬ first < last := by
        intro hlt
        obtain ⟨r, hr, -⟩ := (h.covered first).mpr ⟨Nat.le.refl, hlt⟩
        cases hr
      rw [show first = last by omega]
  | cons span rest ih =>
    obtain ⟨hleast, hrest⟩ := pairwise_cons.mp hsorted
    have hrestpos : ∀ r ∈ rest, 0 < r.length := fun r hr => hpos r (mem_cons_of_mem _ hr)
    rw [sweep]
    constructor
    · intro h
      by_cases hstart : span.start = first
      · subst hstart
        rw [if_neg (fun hne => hne rfl)] at h
        exact ((ih hrest hrestpos).mp h).cons hrestpos
      · rw [if_pos hstart] at h
        cases h
    · intro h
      obtain ⟨hstart, htiles⟩ := h.uncons (hpos span mem_cons_self) hleast
      rw [if_neg (fun hne => hne hstart)]
      subst hstart
      exact (ih hrest hrestpos).mpr htiles

/-- A tiling that is moved. -/
theorem Tiles.shift (h : Tiles regions first last) (k : Nat) :
    Tiles (regions.map fun r => ⟨k + r.start, r.length⟩) (k + first) (k + last) where
  le := Nat.add_le_add_left h.le _
  apart := by
    rw [pairwise_map]
    refine h.apart.imp (fun {r s} hrs => ?_)
    unfold Region.Apart Region.stop at *
    dsimp only
    omega
  covered := by
    intro i
    constructor
    · rintro ⟨r, hr, hlo, hhi⟩
      obtain ⟨s, hs, rfl⟩ := mem_map.mp hr
      unfold Region.stop at hhi
      dsimp only at hlo hhi
      have hin := (h.covered (i - k)).mp ⟨s, hs, by omega, by unfold Region.stop; omega⟩
      omega
    · rintro ⟨hlo, hhi⟩
      obtain ⟨s, hs, hslo, hshi⟩ := (h.covered (i - k)).mpr ⟨by omega, by omega⟩
      unfold Region.stop at hshi
      refine ⟨_, mem_map.mpr ⟨s, hs, rfl⟩, ?_, ?_⟩
      · dsimp only
        omega
      · unfold Region.stop
        dsimp only
        omega

end Patch
