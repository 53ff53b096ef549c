import Mathlib.Order.Cover
import Mathlib.Data.List.Sort

/-! # Interval sets — finite unions of closed spans in normal form

    A finite subset of a linear order stored as a list of closed spans.  The
    normal form asks for ascending spans that neither overlap nor touch; two
    spans touch when the first ends immediately below the start of the second,
    which is the covering relation `⋖` of the order.

    * `merge` turns a list sorted by start into the normal form without changing
      the set it denotes (`covers_merge`, `normalized_merge`), and a list already
      in normal form is a fixed point (`merge_of_normalized`);
    * `cut` removes a span from a span and leaves at most two pieces
      (`covers_cut`);
    * `contains` and `meets` are the two early-exit scans that read a set in
      normal form. -/

namespace IntervalSet

open List

/-- A closed span of an order. -/
structure Span (α : Type) where
  start : α
  stop : α
deriving DecidableEq, Repr

variable {α : Type} [LinearOrder α]

/-- Membership in one span. -/
def Span.Has (s : Span α) (n : α) : Prop := s.start ≤ n ∧ n ≤ s.stop

/-- A span that contains its own end points. -/
def Span.Proper (s : Span α) : Prop := s.start ≤ s.stop

/-- Membership in the union of a list of spans. -/
def Covers (l : List (Span α)) (n : α) : Prop := ∃ s ∈ l, s.Has n

instance (s : Span α) (n : α) : Decidable (s.Has n) := inferInstanceAs (Decidable (_ ∧ _))

instance (s : Span α) : Decidable s.Proper := inferInstanceAs (Decidable (_ ≤ _))

instance (l : List (Span α)) (n : α) : Decidable (Covers l n) :=
  inferInstanceAs (Decidable (∃ s ∈ l, s.Has n))

@[simp] theorem covers_nil (n : α) : ¬ Covers ([] : List (Span α)) n := by
  rintro ⟨s, hs, -⟩
  cases hs

@[simp] theorem covers_cons {s : Span α} {l : List (Span α)} {n : α} :
    Covers (s :: l) n ↔ s.Has n ∨ Covers l n := by
  simp [Covers]

/-- What two lists of spans cover. -/
@[simp] theorem covers_append (l m : List (Span α)) (n : α) :
    Covers (l ++ m) n ↔ Covers l n ∨ Covers m n := by
  simp only [Covers, mem_append]
  constructor
  · rintro ⟨s, hs | hs, hn⟩
    · exact .inl ⟨s, hs, hn⟩
    · exact .inr ⟨s, hs, hn⟩
  · rintro (⟨s, hs, hn⟩ | ⟨s, hs, hn⟩)
    · exact ⟨s, .inl hs, hn⟩
    · exact ⟨s, .inr hs, hn⟩

variable {l m : List (Span α)}

/-- The order of the spans does not matter. -/
theorem covers_perm (h : l.Perm m) (n : α) : Covers l n ↔ Covers m n := by
  constructor
  · rintro ⟨s, hs, hn⟩
    exact ⟨s, h.mem_iff.mp hs, hn⟩
  · rintro ⟨s, hs, hn⟩
    exact ⟨s, h.mem_iff.mpr hs, hn⟩

/-- Two spans with a gap between them: the second starts above the first and
    not immediately above. -/
def Apart (s t : Span α) : Prop := s.stop < t.start ∧ ¬ s.stop ⋖ t.start

/-- The normal form: proper spans, ascending, with a gap between any two. -/
structure Normalized (l : List (Span α)) : Prop where
  proper : ∀ s ∈ l, s.Proper
  apart : l.Pairwise Apart

theorem Normalized.nil : Normalized ([] : List (Span α)) :=
  ⟨fun _ h => (nomatch h), Pairwise.nil⟩

variable {s : Span α} {l : List (Span α)}

theorem Normalized.tail (h : Normalized (s :: l)) : Normalized l :=
  ⟨fun t ht => h.proper t (mem_cons_of_mem _ ht), h.apart.tail⟩

theorem Normalized.head_apart (h : Normalized (s :: l)) : ∀ t ∈ l, Apart s t :=
  (pairwise_cons.mp h.apart).1

variable {n : α}

/-- In normal form the first span holds the least members. -/
theorem Normalized.head_le (h : Normalized (s :: l)) (hn : Covers (s :: l) n) : s.start ≤ n := by
  rcases covers_cons.mp hn with hs | ⟨t, ht, hlo, -⟩
  · exact hs.1
  · have hst : s.start ≤ s.stop := h.proper s mem_cons_self
    exact le_trans hst (le_trans (h.head_apart t ht).1.le hlo)

/-- The last span of a normal form has the greatest end. -/
theorem Normalized.le_last (h : Normalized (l ++ [s])) (hn : Covers (l ++ [s]) n) :
    n ≤ s.stop := by
  rcases (covers_append l [s] n).mp hn with ⟨t, ht, -, hhi⟩ | hs
  · have hap : Apart t s := (pairwise_append.mp h.apart).2.2 t ht s (by simp)
    have hs : s.start ≤ s.stop := h.proper s (by simp)
    exact le_trans hhi (le_trans hap.1.le hs)
  · have hs' : s.Has n := by simpa using hs
    exact hs'.2

/-- In normal form something is missing between the first span and any member
    behind it. -/
theorem Normalized.gap (h : Normalized (s :: l)) (hn : Covers l n) :
    ∃ x, s.stop < x ∧ x < n ∧ ¬ Covers (s :: l) x := by
  cases l with
  | nil => exact absurd hn (covers_nil n)
  | cons t rest =>
    obtain ⟨hlt, hcov⟩ := h.head_apart t mem_cons_self
    obtain ⟨x, hlo, hhi⟩ : ∃ x, s.stop < x ∧ x < t.start := by
      by_contra hnone
      exact hcov ⟨hlt, fun x hlo hhi => hnone ⟨x, hlo, hhi⟩⟩
    refine ⟨x, hlo, lt_of_lt_of_le hhi (h.tail.head_le hn), ?_⟩
    intro hx
    rcases covers_cons.mp hx with hs | hrest
    · exact absurd hs.2 (not_le.mpr hlo)
    · exact absurd (h.tail.head_le hrest) (not_le.mpr hhi)

/-- The first spans of two normal forms of one set end together. -/
private theorem Normalized.head_stop_le {s t : Span α}
    (hl : Normalized (s :: l)) (hm : Normalized (t :: m)) (hstart : s.start = t.start)
    (h : ∀ n, Covers (s :: l) n ↔ Covers (t :: m) n) : t.stop ≤ s.stop := by
  by_contra hlt
  have ht : Covers (t :: m) t.stop := covers_cons.mpr (.inl ⟨hm.proper t mem_cons_self, le_rfl⟩)
  have hrest : Covers l t.stop := by
    rcases covers_cons.mp ((h _).mpr ht) with hs | hrest
    · exact absurd hs.2 hlt
    · exact hrest
  obtain ⟨x, hlo, hhi, hno⟩ := hl.gap hrest
  refine hno ((h x).mpr (covers_cons.mpr (.inl ⟨?_, hhi.le⟩)))
  rw [← hstart]
  exact le_trans (hl.proper s mem_cons_self) hlo.le

/-- **A set has one normal form.** -/
theorem Normalized.eq_of_covers (hl : Normalized l) (hm : Normalized m)
    (h : ∀ n, Covers l n ↔ Covers m n) : l = m := by
  induction l generalizing m with
  | nil =>
    cases m with
    | nil => rfl
    | cons t m =>
      have ht : Covers (t :: m) t.start :=
        covers_cons.mpr (.inl ⟨le_rfl, hm.proper t mem_cons_self⟩)
      exact absurd ((h _).mpr ht) (covers_nil _)
  | cons s l ih =>
    have hs : Covers (s :: l) s.start :=
      covers_cons.mpr (.inl ⟨le_rfl, hl.proper s mem_cons_self⟩)
    cases m with
    | nil => exact absurd ((h _).mp hs) (covers_nil _)
    | cons t m =>
      have ht : Covers (t :: m) t.start :=
        covers_cons.mpr (.inl ⟨le_rfl, hm.proper t mem_cons_self⟩)
      have hstart : s.start = t.start :=
        le_antisymm (hl.head_le ((h _).mpr ht)) (hm.head_le ((h _).mp hs))
      have hstop : s.stop = t.stop :=
        le_antisymm (hm.head_stop_le hl hstart.symm (fun n => (h n).symm))
          (hl.head_stop_le hm hstart h)
      have hst : s = t := by
        cases s
        cases t
        cases hstart
        cases hstop
        rfl
      subst hst
      -- behind the common first span both lists lie above it
      have habove : ∀ {k : List (Span α)}, Normalized (s :: k) → ∀ n,
          Covers k n ↔ Covers (s :: k) n ∧ ¬ s.Has n := by
        intro k hk n
        rw [covers_cons]
        constructor
        · intro hn
          obtain ⟨x, hlo, hhi, -⟩ := hk.gap hn
          exact ⟨.inr hn, fun hs => absurd hs.2 (not_le.mpr (lt_trans hlo hhi))⟩
        · rintro ⟨hn | hn, hno⟩
          · exact absurd hn hno
          · exact hn
      rw [ih hl.tail hm.tail (fun n => by rw [habove hl, habove hm, h n])]

/-! ## Merging -/

/-- Fold a list sorted by start into the open span `last`, closing it whenever
    the next span neither overlaps nor touches it. -/
def mergeFrom (touches : α → α → Bool) : Span α → List (Span α) → List (Span α)
  | last, [] => [last]
  | last, cur :: rest =>
    if cur.start ≤ last.stop ∨ touches last.stop cur.start = true then
      mergeFrom touches
        { last with stop := if cur.stop > last.stop then cur.stop else last.stop } rest
    else last :: mergeFrom touches cur rest

/-- Merge a list sorted by start. -/
def merge (touches : α → α → Bool) : List (Span α) → List (Span α)
  | [] => []
  | s :: rest => mergeFrom touches s rest

section Merge

variable {touches : α → α → Bool} (htouch : ∀ a b, touches a b = true ↔ a ⋖ b)
include htouch

/-- Joining two overlapping or touching spans adds no member. -/
private theorem has_join {last cur : Span α} (hle : last.start ≤ cur.start)
    (hjoin : cur.start ≤ last.stop ∨ touches last.stop cur.start = true) (n : α) :
    Span.Has { last with stop := if cur.stop > last.stop then cur.stop else last.stop } n
      ↔ last.Has n ∨ cur.Has n := by
  -- a member above `last.stop` lies at or above `cur.start` in both cases
  have habove : last.stop < n → cur.start ≤ n := by
    intro hn
    rcases hjoin with hov | ht
    · exact le_trans hov hn.le
    · exact ((htouch _ _).mp ht).ge_of_gt hn
  by_cases hgt : cur.stop > last.stop
  · simp only [hgt, if_true]
    constructor
    · rintro ⟨h1, h2⟩
      by_cases hn : n ≤ last.stop
      · exact .inl ⟨h1, hn⟩
      · exact .inr ⟨habove (not_le.mp hn), h2⟩
    · rintro (⟨h1, h2⟩ | ⟨h1, h2⟩)
      · exact ⟨h1, le_trans h2 hgt.le⟩
      · exact ⟨le_trans hle h1, h2⟩
  · simp only [hgt, if_false]
    constructor
    · intro h
      exact .inl h
    · rintro (h | ⟨h1, h2⟩)
      · exact h
      · exact ⟨le_trans hle h1, le_trans h2 (not_lt.mp hgt)⟩

omit htouch in
private theorem proper_join {last cur : Span α} (hlast : last.Proper) :
    Span.Proper { last with stop := if cur.stop > last.stop then cur.stop else last.stop } := by
  by_cases hgt : cur.stop > last.stop
  · simp only [hgt, if_true]
    exact le_trans hlast hgt.le
  · simpa only [hgt, if_false] using hlast

section

variable (last : Span α) (l : List (Span α))

/-- Merging from a span on covers the same. -/
theorem covers_mergeFrom (hsort : (last :: l).Pairwise (fun s t => s.start ≤ t.start)) (n : α) :
    Covers (mergeFrom touches last l) n ↔ last.Has n ∨ Covers l n := by
  induction l generalizing last with
  | nil => simp [mergeFrom]
  | cons cur rest ih =>
    have hhead := (pairwise_cons.mp hsort).1
    have htail := (pairwise_cons.mp hsort).2
    have hle : last.start ≤ cur.start := hhead cur mem_cons_self
    rw [mergeFrom]
    by_cases hjoin : cur.start ≤ last.stop ∨ touches last.stop cur.start = true
    · rw [if_pos hjoin, ih]
      · rw [has_join htouch hle hjoin n, covers_cons, or_assoc]
      · refine pairwise_cons.mpr ⟨?_, (pairwise_cons.mp htail).2⟩
        intro t ht
        exact hhead t (mem_cons_of_mem _ ht)
    · rw [if_neg hjoin, covers_cons, ih cur htail, covers_cons]

/-- Merging a sorted list produces the normal form, and its spans start at or
    above the first one. -/
theorem normalized_mergeFrom (hlast : last.Proper)
    (hl : ∀ s ∈ l, s.Proper) (hsort : (last :: l).Pairwise (fun s t => s.start ≤ t.start)) :
    Normalized (mergeFrom touches last l)
      ∧ ∀ t ∈ mergeFrom touches last l, last.start ≤ t.start := by
  induction l generalizing last with
  | nil =>
    refine ⟨⟨?_, pairwise_singleton _ _⟩, ?_⟩
    · intro s hs
      rw [mem_singleton.mp hs]
      exact hlast
    · intro t ht
      rw [mem_singleton.mp ht]
  | cons cur rest ih =>
    have hcur : cur.Proper := hl cur mem_cons_self
    have hrest : ∀ s ∈ rest, s.Proper := fun s hs => hl s (mem_cons_of_mem _ hs)
    have hhead := (pairwise_cons.mp hsort).1
    have htail := (pairwise_cons.mp hsort).2
    have hle : last.start ≤ cur.start := hhead cur mem_cons_self
    rw [mergeFrom]
    by_cases hjoin : cur.start ≤ last.stop ∨ touches last.stop cur.start = true
    · rw [if_pos hjoin]
      refine ih _ (proper_join hlast) hrest ?_
      refine pairwise_cons.mpr ⟨?_, (pairwise_cons.mp htail).2⟩
      intro t ht
      exact hhead t (mem_cons_of_mem _ ht)
    · rw [if_neg hjoin]
      obtain ⟨hnorm, hlow⟩ := ih cur hcur hrest htail
      obtain ⟨hov, ht⟩ := not_or.mp hjoin
      -- the closed span keeps a gap to everything that follows
      have hgap : ∀ t ∈ mergeFrom touches cur rest, Apart last t := by
        intro t hmem
        have hlt : last.stop < t.start := lt_of_lt_of_le (not_le.mp hov) (hlow t hmem)
        refine ⟨hlt, ?_⟩
        intro hcov
        have heq : t.start = cur.start := le_antisymm (hcov.ge_of_gt (not_le.mp hov)) (hlow t hmem)
        rw [heq] at hcov
        exact ht ((htouch _ _).mpr hcov)
      refine ⟨⟨?_, pairwise_cons.mpr ⟨hgap, hnorm.apart⟩⟩, ?_⟩
      · intro s hs
        rcases mem_cons.mp hs with heq | hmem
        · rw [heq]
          exact hlast
        · exact hnorm.proper s hmem
      · intro t hmem
        rcases mem_cons.mp hmem with heq | hmem
        · rw [heq]
        · exact le_trans hle (hlow t hmem)

/-- Merging from a span on leaves a normal form. -/
theorem mergeFrom_of_normalized
    (h : Normalized (last :: l)) : mergeFrom touches last l = last :: l := by
  induction l generalizing last with
  | nil => rfl
  | cons cur rest ih =>
    have hap : Apart last cur := h.head_apart cur mem_cons_self
    have hjoin : ¬ (cur.start ≤ last.stop ∨ touches last.stop cur.start = true) := by
      rintro (hle | ht)
      · exact absurd hap.1 (not_lt.mpr hle)
      · exact hap.2 ((htouch _ _).mp ht)
    rw [mergeFrom, if_neg hjoin, ih cur h.tail]

end

section

variable (l : List (Span α))

/-- Merging sorted spans covers the same. -/
theorem covers_merge (hsort : l.Pairwise (fun s t => s.start ≤ t.start)) (n : α) :
    Covers (merge touches l) n ↔ Covers l n := by
  cases l with
  | nil => exact Iff.rfl
  | cons s rest =>
    rw [merge, covers_cons]
    exact covers_mergeFrom htouch s rest hsort n

/-- Merging sorted spans gives a normal form. -/
theorem normalized_merge (hl : ∀ s ∈ l, s.Proper)
    (hsort : l.Pairwise (fun s t => s.start ≤ t.start)) :
    Normalized (merge touches l) := by
  cases l with
  | nil => exact Normalized.nil
  | cons s rest =>
    exact (normalized_mergeFrom htouch s rest (hl s mem_cons_self)
      (fun t ht => hl t (mem_cons_of_mem _ ht)) hsort).1

theorem merge_of_normalized (h : Normalized l) : merge touches l = l := by
  cases l with
  | nil => rfl
  | cons s rest => exact mergeFrom_of_normalized htouch s rest h

end

end Merge

/-! ## Removing a span -/

/-- Two closed spans that share a member. -/
def overlap (s t : Span α) : Bool := decide (s.start ≤ t.stop) && decide (t.start ≤ s.stop)

/-- What is left of `cur` once `removed` is taken out; `prev` and `next` step to
    the neighbouring positions. -/
def cut (prev next : α → α) (removed cur : Span α) : List (Span α) :=
  if overlap cur removed = true then
    (if cur.start < removed.start then [⟨cur.start, prev removed.start⟩] else [])
      ++ (if removed.stop < cur.stop then [⟨next removed.stop, cur.stop⟩] else [])
  else [cur]

section Cut

variable {prev next : α → α}

/-- The part below a cut covers what lies below it. -/
private theorem covers_below (hprev : ∀ a b : α, a < b → prev b ⋖ b) {first bound n : α} :
    Covers (if first < bound then [(⟨first, prev bound⟩ : Span α)] else []) n
      ↔ first ≤ n ∧ n < bound := by
  by_cases hlt : first < bound
  · have hcov := hprev _ _ hlt
    rw [if_pos hlt, covers_cons]
    constructor
    · rintro (⟨ha, hb⟩ | hno)
      · exact ⟨ha, lt_of_le_of_lt hb hcov.lt⟩
      · exact absurd hno (covers_nil n)
    · rintro ⟨ha, hb⟩
      exact .inl ⟨ha, hcov.le_of_lt hb⟩
  · rw [if_neg hlt]
    constructor
    · intro hno
      exact absurd hno (covers_nil n)
    · rintro ⟨ha, hb⟩
      exact absurd (lt_of_le_of_lt ha hb) hlt

/-- The part above a cut covers what lies above it. -/
private theorem covers_above (hnext : ∀ a b : α, a < b → a ⋖ next a) {bound last n : α} :
    Covers (if bound < last then [(⟨next bound, last⟩ : Span α)] else []) n
      ↔ bound < n ∧ n ≤ last := by
  by_cases hlt : bound < last
  · have hcov := hnext _ _ hlt
    rw [if_pos hlt, covers_cons]
    constructor
    · rintro (⟨ha, hb⟩ | hno)
      · exact ⟨lt_of_lt_of_le hcov.lt ha, hb⟩
      · exact absurd hno (covers_nil n)
    · rintro ⟨ha, hb⟩
      exact .inl ⟨hcov.ge_of_gt ha, hb⟩
  · rw [if_neg hlt]
    constructor
    · intro hno
      exact absurd hno (covers_nil n)
    · rintro ⟨ha, hb⟩
      exact absurd (lt_of_lt_of_le ha hb) hlt

variable (hprev : ∀ a b : α, a < b → prev b ⋖ b)
  (hnext : ∀ a b : α, a < b → a ⋖ next a)

include hprev hnext

/-- Cutting removes exactly the members of the removed span. -/
theorem covers_cut (removed cur : Span α) (n : α) :
    Covers (cut prev next removed cur) n ↔ cur.Has n ∧ ¬ removed.Has n := by
  rw [cut]
  by_cases hov : overlap cur removed = true
  · rw [if_pos hov]
    obtain ⟨h1, h2⟩ : cur.start ≤ removed.stop ∧ removed.start ≤ cur.stop := by
      simpa [overlap] using hov
    rw [covers_append, covers_below hprev, covers_above hnext]
    constructor
    · rintro (⟨ha, hb⟩ | ⟨ha, hb⟩)
      · exact ⟨⟨ha, le_trans hb.le h2⟩, fun h => absurd h.1 (not_le.mpr hb)⟩
      · exact ⟨⟨le_trans h1 ha.le, hb⟩, fun h => absurd h.2 (not_le.mpr ha)⟩
    · rintro ⟨⟨ha, hb⟩, hno⟩
      by_cases hlo : removed.start ≤ n
      · exact .inr ⟨not_le.mp (fun h => hno ⟨hlo, h⟩), hb⟩
      · exact .inl ⟨ha, not_le.mp hlo⟩
  · -- the spans share nothing, and the whole of the current one is left
    rw [if_neg hov]
    have hdis : ¬ (cur.start ≤ removed.stop ∧ removed.start ≤ cur.stop) := by
      simpa [overlap] using hov
    rw [covers_cons]
    constructor
    · rintro (hn | hno)
      · exact ⟨hn, fun hr => hdis ⟨le_trans hn.1 hr.2, le_trans hr.1 hn.2⟩⟩
      · exact absurd hno (covers_nil n)
    · rintro ⟨hn, -⟩
      exact .inl hn

/-- What is left of a span is proper. -/
theorem proper_cut (removed cur : Span α) (hcur : cur.Proper) :
    ∀ s ∈ cut prev next removed cur, s.Proper := by
  intro s hs
  rw [cut] at hs
  by_cases hov : overlap cur removed = true
  · rw [if_pos hov] at hs
    rcases mem_append.mp hs with hl | hr
    · by_cases hlt : cur.start < removed.start
      · rw [if_pos hlt] at hl
        rw [mem_singleton.mp hl]
        exact (hprev _ _ hlt).le_of_lt hlt
      · rw [if_neg hlt] at hl
        cases hl
    · by_cases hlt : removed.stop < cur.stop
      · rw [if_pos hlt] at hr
        rw [mem_singleton.mp hr]
        exact (hnext _ _ hlt).ge_of_gt hlt
      · rw [if_neg hlt] at hr
        cases hr
  · rw [if_neg hov] at hs
    rw [mem_singleton.mp hs]
    exact hcur

/-- Cutting every span of a list removes the span from the set. -/
theorem covers_flatMap_cut (removed : Span α) (l : List (Span α)) (n : α) :
    Covers (l.flatMap (cut prev next removed)) n ↔ Covers l n ∧ ¬ removed.Has n := by
  induction l with
  | nil => simp
  | cons cur rest ih =>
    rw [flatMap_cons, covers_append, covers_cut hprev hnext removed cur, ih,
      covers_cons, ← or_and_right]

theorem proper_flatMap_cut (removed : Span α) (l : List (Span α))
    (hl : ∀ s ∈ l, s.Proper) : ∀ s ∈ l.flatMap (cut prev next removed), s.Proper := by
  intro s hs
  obtain ⟨cur, hcur, hmem⟩ := mem_flatMap.mp hs
  exact proper_cut hprev hnext removed cur (hl cur hcur) s hmem

end Cut

/-! ## Scans that stop early -/

/-- Whether one span of an ascending list holds all of `target`. -/
def contains : List (Span α) → Span α → Bool
  | [], _ => false
  | candidate :: rest, target =>
    if candidate.start ≤ target.start ∧ target.stop ≤ candidate.stop then true
    else if target.start < candidate.start then false
    else contains rest target

/-- Whether a span of an ascending list shares a member with `target`. -/
def meets : List (Span α) → Span α → Bool
  | [], _ => false
  | candidate :: rest, target =>
    if overlap candidate target = true then true
    else if target.stop < candidate.start then false
    else meets rest target

variable {target : Span α}

/-- A positive containment scan means every member of the target is covered. -/
theorem covers_of_contains (h : contains l target = true) (hn : target.Has n) : Covers l n := by
  induction l with
  | nil => cases h
  | cons candidate rest ih =>
    rw [contains] at h
    by_cases hin : candidate.start ≤ target.start ∧ target.stop ≤ candidate.stop
    · exact ⟨candidate, mem_cons_self, le_trans hin.1 hn.1, le_trans hn.2 hin.2⟩
    · rw [if_neg hin] at h
      by_cases hlt : target.start < candidate.start
      · rw [if_pos hlt] at h
        cases h
      · rw [if_neg hlt] at h
        exact covers_cons.mpr (.inr (ih h))

/-- On a list in normal form a containment scan looks at the ends of every span: the
    spans after the early exit start above the target. -/
theorem contains_iff (hl : Normalized l) : contains l target = true
    ↔ ∃ s ∈ l, s.start ≤ target.start ∧ target.stop ≤ s.stop := by
  induction l with
  | nil => exact ⟨fun h => (by cases h), fun ⟨_, h, _⟩ => (by cases h)⟩
  | cons candidate rest ih =>
    simp only [contains, mem_cons, exists_eq_or_imp]
    by_cases hin : candidate.start ≤ target.start ∧ target.stop ≤ candidate.stop
    · rw [if_pos hin]
      exact ⟨fun _ => .inl hin, fun _ => rfl⟩
    · rw [if_neg hin, or_iff_right hin]
      by_cases hlt : target.start < candidate.start
      · rw [if_pos hlt]
        refine ⟨fun h => (by cases h), fun ⟨s, hs, hle, _⟩ => ?_⟩
        have hbelow : candidate.start ≤ s.start :=
          hl.head_le (covers_cons.mpr (.inr ⟨s, hs, le_rfl, hl.tail.proper s hs⟩))
        exact absurd (lt_of_lt_of_le hlt (hbelow.trans hle)) (lt_irrefl _)
      · rw [if_neg hlt]
        exact ih hl.tail

/-- On a list in normal form a containment scan finds every covered interval: an
    interval without a hole lies in one span. -/
theorem contains_of_covers (hl : Normalized l)
    (hproper : target.Proper) (h : ∀ n, target.Has n → Covers l n) :
    contains l target = true := by
  have hstart : target.Has target.start := ⟨le_rfl, hproper⟩
  induction l with
  | nil => exact absurd (h _ hstart) (covers_nil _)
  | cons candidate rest ih =>
    have hle : candidate.start ≤ target.start := hl.head_le (h _ hstart)
    rw [contains]
    by_cases hin : target.stop ≤ candidate.stop
    · rw [if_pos ⟨hle, hin⟩]
    · rw [if_neg (fun hc => hin hc.2), if_neg (not_lt.mpr hle)]
      have hstop : Covers rest target.stop := by
        rcases covers_cons.mp (h _ ⟨hproper, le_rfl⟩) with hc | hrest
        · exact absurd hc.2 hin
        · exact hrest
      obtain ⟨x, hlo, hhi, hno⟩ := hl.gap hstop
      -- the hole behind `candidate` lies below the target
      have hx : x < target.start := by
        by_contra hge
        exact hno (h x ⟨not_lt.mp hge, hhi.le⟩)
      refine ih hl.tail (fun n hn => ?_)
      rcases covers_cons.mp (h n hn) with hc | hrest
      · exact absurd (lt_of_le_of_lt hc.2 (lt_trans hlo hx)) (not_lt.mpr hn.1)
      · exact hrest

/-- On a list in normal form a negative intersection scan means no member of the
    target is covered: the spans after the early exit lie above the target. -/
theorem not_covers_of_not_meets (hl : Normalized l)
    (h : meets l target = false) (hn : target.Has n) : ¬ Covers l n := by
  induction l with
  | nil => exact covers_nil n
  | cons candidate rest ih =>
    rw [meets] at h
    by_cases hov : overlap candidate target = true
    · rw [if_pos hov] at h
      cases h
    · rw [if_neg hov] at h
      by_cases hlt : target.stop < candidate.start
      · intro hc
        exact absurd (hl.head_le hc) (not_le.mpr (lt_of_le_of_lt hn.2 hlt))
      · rw [if_neg hlt] at h
        intro hc
        rcases covers_cons.mp hc with hhead | hrest
        · have : candidate.start ≤ target.stop ∧ target.start ≤ candidate.stop :=
            ⟨le_trans hhead.1 hn.2, le_trans hn.1 hhead.2⟩
          exact hov (by simpa [overlap] using this)
        · exact ih hl.tail h hrest

/-- A positive intersection scan finds a common member. -/
theorem covers_of_meets (hl : ∀ s ∈ l, s.Proper) (hproper : target.Proper)
    (h : meets l target = true) : ∃ n, target.Has n ∧ Covers l n := by
  induction l with
  | nil => cases h
  | cons candidate rest ih =>
    rw [meets] at h
    split_ifs at h with hov hlt
    · have hov : candidate.start ≤ target.stop ∧ target.start ≤ candidate.stop := by
        simpa [overlap] using hov
      refine ⟨max candidate.start target.start, ⟨le_max_right _ _, max_le hov.1 hproper⟩,
        candidate, mem_cons_self, le_max_left _ _, max_le (hl candidate mem_cons_self) hov.2⟩
    · obtain ⟨n, hn, hcov⟩ := ih (fun s hs => hl s (mem_cons_of_mem _ hs)) h
      exact ⟨n, hn, covers_cons.mpr (.inr hcov)⟩

end IntervalSet
