import Etherview.StoreInvariant

/-! # Disciplined calls

    The repository accepts more than a canonicalizer asks for.  `Call.Disciplined` is
    what the canonicalizer keeps to.  A disciplined reorg or replacement cuts the chain
    at one height, takes off everything from there up, and puts the attached branch in
    its place (`Rebased`): nothing below the cut changes, and the end of the attached
    branch is the new tip. -/

namespace Store

open IntervalSet Transact MapUpdate List Fin

variable {B H : Type} [DecidableEq H] [ChainBundle B H]

/-- The calls of a canonicalizer: a reorg detaches something and its heights do not
    wrap, an ancestor is canonical and below everything detached, and a commit
    without coverage is made on an index without a configured start. -/
def Call.Disciplined (s : MemoryChain B H) : Call B H → Prop
  | .configureIndex _ => False
  | .commitCanonical _ _ => s.configuredStart = none
  | .applyReorg reorg => s.refAt reorg.ancestor.number = some reorg.ancestor
      ∧ reorg.detached.val ≠ []
      ∧ reorg.ancestor.number.val + reorg.attached.val.length < 18446744073709551616
  | .replaceHighestCanonicalSegment replacement => ∀ a ∈ replacement.ancestor,
      s.refAt a.number = some a ∧ ∀ d ∈ replacement.detached.val, a.number < d.number
  | _ => True

omit [DecidableEq H] [ChainBundle B H] in
theorem Linked.le_last {refs : List (BlockRef H)} (h : Linked refs) {last r : BlockRef H}
    (hlast : refs.getLast? = some last) (hr : r ∈ refs) : r.number ≤ last.number := by
  obtain ⟨first, rest, rfl⟩ := exists_cons_of_ne_nil (ne_nil_of_mem hr)
  rw [← Option.some.inj hlast]
  exact ((h.mem_iff r.number).mp ⟨r, hr, rfl⟩).2

/-- The chain is taken off from the height `cut` on and continued with `items`. -/
structure Rebased (s t : MemoryChain B H) (cut : Uint64) (detached : List (BlockRef H))
    (items : List (BlockRef H × B)) : Prop where
  moved : Moved s t detached items
  detached_canonical : ∀ d ∈ detached, s.canonical.lookup d.number = some d.hash
  detached_above : ∀ d ∈ detached, cut ≤ d.number
  detached_all : ∀ n, cut ≤ n → s.refAt n ≠ none → ¬ Kept detached n
  items_above : ∀ p ∈ items, cut ≤ p.1.number
  start_eq : t.configuredStart = s.configuredStart
  finality_eq : t.finality = s.finality
  journals_eq : t.journals = adjustAll [] (setFlags true) BlockRef.hash (items.map Prod.fst)
    (adjustAll [] (setFlags false) BlockRef.hash detached s.journals)

namespace Rebased

variable {s t : MemoryChain B H} {cut : Uint64} {detached : List (BlockRef H)}
  {items : List (BlockRef H × B)}

section

variable (h : Rebased s t cut detached items)
include h

theorem refAt_below {n : Uint64} (hn : n < cut) : t.refAt n = s.refAt n := by
  refine h.moved.refAt_kept (fun p hp hpn => ?_) fun d hd hdn => ?_
  · exact absurd (h.items_above p hp) (by rw [hpn]; exact not_le.mpr hn)
  · exact absurd (h.detached_above d hd) (by rw [hdn]; exact not_le.mpr hn)

/-- From the cut on only attached blocks are canonical. -/
theorem refAt_above {n : Uint64} (hn : cut ≤ n) :
    t.refAt n ≠ none ↔ ∃ p ∈ items, p.1.number = n := by
  rw [h.moved.refAt_ne_none]
  constructor
  · rintro (⟨hold, hkept⟩ | hitem)
    · exact absurd hkept (h.detached_all n hn hold)
    · exact hitem
  · exact .inr

/-- **The new tip** is the end of the attached branch. -/
theorem tip_last {last : BlockRef H}
    (hlast : (items.map Prod.fst).getLast? = some last) : t.tip = some last := by
  obtain ⟨p, hp, rfl⟩ := mem_map.mp (mem_of_getLast? hlast)
  refine h.moved.after.tip_some.mpr ⟨h.moved.refAt_attached hp, fun n hn => ?_⟩
  by_cases hcut : cut ≤ n
  · obtain ⟨q, hq, rfl⟩ := (h.refAt_above hcut).mp hn
    exact h.moved.linked.le_last hlast (mem_map_of_mem hq)
  · exact le_trans (not_le.mp hcut).le (h.items_above p hp)

/-- Without an attached branch it is the block below the cut. -/
theorem tip_base (hnil : items = []) {base : BlockRef H}
    (hbase : s.refAt base.number = some base) (hmax : base.number ≠ maxUint64)
    (hcut : cut = base.number + 1) : t.tip = some base := by
  have hnext : ∀ n, cut ≤ n ↔ base.number < n := by
    intro n
    rw [hcut]
    exact next_le_iff hmax
  refine h.moved.after.tip_some.mpr ⟨?_, fun n hn => ?_⟩
  · rw [h.refAt_below (not_le.mp fun hle => lt_irrefl _ ((hnext _).mp hle))]
    exact hbase
  · by_contra hle
    obtain ⟨p, hp, -⟩ := (h.refAt_above ((hnext n).mpr (not_le.mp hle))).mp hn
    rw [hnil] at hp
    cases hp

/-- The detached blocks are those from the cut on. -/
theorem mem_detached (hrefs : ∀ d ∈ detached, s.refAt d.number = some d) (d : BlockRef H) :
    d ∈ detached ↔ s.refAt d.number = some d ∧ cut ≤ d.number := by
  constructor
  · intro hd
    exact ⟨hrefs d hd, h.detached_above d hd⟩
  · rintro ⟨hread, hcut⟩
    have hgone := h.detached_all d.number hcut (by rw [hread]; exact Option.some_ne_none _)
    obtain ⟨d', hd', hnumber⟩ := not_kept.mp hgone
    have hsame := hrefs d' hd'
    rw [hnumber, hread] at hsame
    cases hsame
    exact hd'

/-- A branch that is listed downwards is listed from the tip on. -/
theorem head_tip (hrefs : ∀ d ∈ detached, s.refAt d.number = some d)
    (hdown : (detached.map BlockRef.number).Pairwise fun upper lower => lower < upper)
    {first : BlockRef H} (hfirst : detached.head? = some first) : s.tip = some first := by
  obtain ⟨rest, rfl⟩ : ∃ rest, detached = first :: rest :=
    ⟨_, eq_cons_of_mem_head? hfirst⟩
  have hmem : first ∈ first :: rest := mem_cons_self
  refine h.moved.before.tip_some.mpr ⟨hrefs first hmem, fun n hn => ?_⟩
  by_cases hcut : cut ≤ n
  · obtain ⟨d, hd, rfl⟩ := not_kept.mp (h.detached_all n hcut hn)
    rcases mem_cons.mp hd with rfl | hd
    · exact le_rfl
    · exact ((pairwise_cons.mp hdown).1 d.number (mem_map_of_mem hd)).le
  · exact le_trans (not_le.mp hcut).le (h.detached_above first hmem)

end

end Rebased

section Calls

variable {s t : MemoryChain B H}

/-! ## Reorgs -/

variable {reorg : Reorg B H} {u : Unit}

/-- A disciplined reorg rebases the chain above its ancestor. -/
theorem applyReorg_rebased (hs : WellFormed s) (hdisc : (Call.applyReorg reorg).Disciplined s)
    (h : (applyReorg reorg).run s = (.ok u, t)) :
    ∃ items, Rebased s t (reorg.ancestor.number + 1) reorg.detached.val items
      ∧ reorg.ancestor.number ≠ maxUint64
      ∧ Forall₂ (fun b p => cloneBundle b = .ok p.2) reorg.attached.val items := by
  obtain ⟨-, hne, hfit⟩ := hdisc
  have ht := applyReorg_wellFormed hs h
  obtain ⟨owned, items, ranges, checkpoint, hown, hadm, rfl⟩ := applyReorg_run h
  have hacc := ownReorg_ok hown
  obtain ⟨top, rest, htop⟩ := exists_cons_of_ne_nil hne
  obtain ⟨htip, hlength, hheights⟩ :=
    reorg_detached_heights hs hacc hadm (by rw [htop]; rfl : _ = some top)
  have hmax : reorg.ancestor.number ≠ maxUint64 := by
    intro hmax
    rw [htop, length_cons, eq_maxUint64_iff.mp hmax] at hlength
    omega
  -- the validation of a reorg lets heights wrap; the discipline does not
  have hlinked : Linked (reorg.ancestor :: items.map Prod.fst) := by
    refine linked_of_no_wrap hacc.chain ?_
    rw [length_map, ← hacc.copies.length_eq]
    exact hfit
  obtain ⟨-, hcanonical, hstart, hfin, -⟩ := afterReorg_maps s owned items ranges checkpoint
  have hjournals := afterReorg_journals s owned items ranges checkpoint
  rw [hacc.detached] at hcanonical hjournals
  refine ⟨items,
    ⟨⟨hs, ht, hacc.owned, hlinked.tail, hcanonical⟩, ?_, ?_, ?_, ?_, hstart, hfin,
    hjournals⟩, hmax, hacc.copies⟩
  · intro d hd
    exact hadm.detached d (by rw [hacc.detached]; exact hd)
  · intro d hd
    exact (next_le_iff hmax).mpr ((hheights d.number).mp fun hkept => hkept d hd rfl).1
  · intro n hn hsome
    -- nothing lies above the tip, where the detached branch starts
    obtain ⟨tip, htip', hnumber⟩ := Option.map_eq_some_iff.mp htip
    have hle := (hs.tip_some.mp htip').2 n hsome
    rw [hnumber] at hle
    exact (hheights n).mpr ⟨(next_le_iff hmax).mp hn, hle⟩
  · intro p hp
    have hmem : p.1 ∈ items.map Prod.fst := mem_map_of_mem hp
    obtain ⟨first, others, hfirst⟩ := exists_cons_of_ne_nil (ne_nil_of_mem hmem)
    rw [hfirst] at hlinked hmem
    rw [← hlinked.head_follows.2.1]
    exact hlinked.tail.le_of_mem hmem

/-- A reorg detaches from the tip down. -/
theorem applyReorg_downwards (hs : WellFormed s) (h : (applyReorg reorg).run s = (.ok u, t)) :
    (reorg.detached.val.map BlockRef.number).Pairwise fun upper lower => lower < upper := by
  obtain ⟨owned, items, ranges, checkpoint, hown, hadm, rfl⟩ := applyReorg_run h
  have hacc := ownReorg_ok hown
  cases hdetached : reorg.detached.val with
  | nil => exact List.Pairwise.nil
  | cons top rest =>
    obtain ⟨-, hlength, -⟩ :=
      reorg_detached_heights hs hacc hadm (by rw [hdetached]; rfl : _ = some top)
    -- the height at an index, without wrapping
    have hval : ∀ (i : Nat) (d : BlockRef H), reorg.detached.val[i]? = some d →
        d.number.val = reorg.ancestor.number.val + (reorg.detached.val.length - i) := by
      intro i d hd
      have hcount : (uint64 (reorg.detached.val.length - i)).val
          = reorg.detached.val.length - i := uint64_val (by omega)
      rw [hacc.heights i d hd, val_add_eq_of_add_lt (by omega), hcount]
    rw [← hdetached, pairwise_iff_getElem]
    intro i j hi hj hij
    rw [length_map] at hi hj
    rw [getElem_map, getElem_map, lt_def,
      hval i _ (getElem?_eq_getElem hi), hval j _ (getElem?_eq_getElem hj)]
    omega

/-! ## Replacements -/

section

omit [ChainBundle B H] [DecidableEq H]

variable {l : List (BlockRef H)}

theorem descends_downwards (h : l.IsChain Descends) :
    (l.map BlockRef.number).Pairwise fun upper lower => lower < upper := by
  have hchain : (l.map BlockRef.number).IsChain fun upper lower => lower < upper :=
    isChain_map_of_isChain _ (fun _ _ hab => hab.1) h
  exact hchain.pairwise

theorem descends_nodup (h : l.IsChain Descends) :
    (l.map BlockRef.number).Nodup := (descends_downwards h).imp fun hab => ne_of_gt hab

/-- A branch that has as many blocks as there are canonical heights above the ancestor
    holds all of them. -/
theorem detached_all_of_count {a : Uint64} {detached : List (BlockRef H)}
    (hnodup : (detached.map BlockRef.number).Nodup)
    (hcanonical : ∀ d ∈ detached, s.canonical.lookup d.number = some d.hash)
    (habove : ∀ d ∈ detached, a < d.number) (hcount : canonicalAbove s a = detached.length)
    {n : Uint64} (hn : a < n) (hsome : s.canonical.lookup n ≠ none) : ¬ Kept detached n := by
  have hsub : (detached.map BlockRef.number).toFinset ⊆ s.canonical.keys.filter (a < ·) := by
    intro m hm
    obtain ⟨d, hd, rfl⟩ := mem_map.mp (mem_toFinset.mp hm)
    refine Finset.mem_filter.mpr ⟨?_, habove d hd⟩
    rw [Finmap.mem_keys, Finmap.mem_iff]
    exact ⟨_, hcanonical d hd⟩
  have heq := Finset.eq_of_subset_of_card_le hsub (by
    rw [toFinset_card_of_nodup hnodup, length_map]
    exact le_of_eq hcount)
  have hmem : n ∈ s.canonical.keys.filter (a < ·) := by
    refine Finset.mem_filter.mpr ⟨?_, hn⟩
    rw [Finmap.mem_keys, Finmap.mem_iff]
    exact Option.ne_none_iff_exists'.mp hsome
  rw [← heq, mem_toFinset] at hmem
  obtain ⟨d, hd, hdn⟩ := mem_map.mp hmem
  exact not_kept.mpr ⟨d, hd, hdn⟩

end

/-- The height at which a replacement cuts the chain. -/
def SparseCanonicalReplacement.cut (replacement : SparseCanonicalReplacement B H) : Uint64 :=
  match replacement.ancestor with
  | some a => a.number + 1
  | none => replacement.range.start

/-- A disciplined replacement rebases the chain above its cut. -/
theorem replaceHighestCanonicalSegment_rebased
    {replacement : SparseCanonicalReplacement B H} {result : CoreCoverage H} (hs : WellFormed s)
    (hdisc : (Call.replaceHighestCanonicalSegment replacement).Disciplined s)
    (h : (replaceHighestCanonicalSegment replacement).run s = (.ok result, t)) :
    ∃ items, Rebased s t replacement.cut replacement.detached.val items
      ∧ SparseAccepted replacement items
      ∧ (∀ a ∈ replacement.ancestor, a.number ≠ maxUint64) := by
  obtain ⟨_, start, _, _, _, hadm, _⟩ := replaceHighestCanonicalSegment_run h
  obtain ⟨items, heff⟩ := replaceHighestCanonicalSegment_effect hs hadm.configured h
  have hacc := heff.accepted
  have hcanonical : ∀ d ∈ replacement.detached.val, s.canonical.lookup d.number = some d.hash :=
    fun d hd => (hs.refAt_some (heff.detached d hd)).2
  cases hanc : replacement.ancestor with
  | none =>
    have hcut : replacement.cut = replacement.range.start := by
      rw [SparseCanonicalReplacement.cut, hanc]
    -- without an ancestor the branch starts where the range does
    have hstarts : ∀ first ∈ (items.map Prod.fst).head?,
        replacement.range.start ≤ first.number := by
      intro first hfirst
      have := hacc.starts first hfirst
      rw [hanc] at this
      exact ge_of_eq this
    refine ⟨items, ⟨heff.moved, hcanonical, ?_, ?_, ?_, heff.start_eq, heff.finality_eq,
      heff.journals_eq⟩, hacc, fun a ha => by cases ha⟩
    · intro d hd
      rw [hcut]
      exact (hacc.detaches_only hanc d hd).1
    · intro n hn hsome
      rw [hcut] at hn
      -- the range ends at the tip, so every block from its start on is in it
      obtain ⟨tip, htip, hnumber⟩ := Option.map_eq_some_iff.mp heff.tip
      have hle := (hs.tip_some.mp htip).2 n hsome
      rw [hnumber] at hle
      exact not_kept.mpr (hacc.detaches_range heff.nonempty n ⟨hn, hle⟩)
    · rw [hcut]
      exact start_le_items hacc.linked hstarts
  | some a =>
    obtain ⟨-, habove⟩ := hdisc a hanc
    have hmax : a.number ≠ maxUint64 := by
      obtain ⟨d, rest, hd⟩ := exists_cons_of_ne_nil heff.nonempty
      exact ne_maxUint64_of_lt (habove d (by rw [hd]; exact mem_cons_self))
    have hnext : ∀ n, replacement.cut ≤ n ↔ a.number < n := by
      intro n
      rw [SparseCanonicalReplacement.cut, hanc]
      exact next_le_iff hmax
    refine ⟨items, ⟨heff.moved, hcanonical, ?_, ?_, ?_, heff.start_eq, heff.finality_eq,
      heff.journals_eq⟩, hacc, fun a' ha' => by cases ha'; exact hmax⟩
    · intro d hd
      exact (hnext _).mpr (habove d hd)
    · intro n hn hsome
      -- as many blocks are detached as lie above the ancestor
      refine detached_all_of_count (descends_nodup hacc.descends) hcanonical habove
        (heff.above a hanc) ((hnext n).mp hn) fun hno => hsome (hs.refAt_eq_none.mpr hno)
    · refine start_le_items hacc.linked fun first hfirst => ?_
      have hfollows := hacc.starts first hfirst
      rw [hanc] at hfollows
      rw [SparseCanonicalReplacement.cut, hanc]
      exact ge_of_eq hfollows.2.1

end Calls

end Store
