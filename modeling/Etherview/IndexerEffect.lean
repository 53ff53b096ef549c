import Etherview.IndexerOutcome

/-! # The effect of an apply

    `Apply` and `ApplyHead` return what they did to the chain: the old and the new tip,
    the ancestor, and the blocks that were detached and attached.  `apply_effect` ties
    this result to the repository on every successful path: a first block, a known
    candidate, the two truncations, the two replacements of a disconnected live range,
    an extension and a reorg.

    The repository checks that a detached branch is complete (`Rebased`); the
    canonicalizer adds the bound on its length and the finalized height (`Reports`). -/

namespace Indexer

open Store Interaction Transact IntervalSet MapUpdate List Prog Option Prod

variable {B H : Type} [DecidableEq H] [ChainBundle B H]

/-! ## The result -/

/-- Which blocks are detached and attached.  With an ancestor they are the canonical
    blocks above it and a linked branch from there to the candidate; without one, the
    canonical blocks of the last coverage range and a linked branch from its start. -/
def Extent (s : MemoryChain B H) (candidate : BlockRef H) (result : ApplyResult H) : Prop :=
  match result.disposition with
  | .alreadyKnown => result.detached = [] ∧ result.attached = []
  | .initialized => s.tip = none ∧ result.detached = [] ∧ result.attached = [candidate]
  | _ =>
    match result.ancestor with
    | some a => s.refAt a.number = some a
        ∧ (∀ d, d ∈ result.detached ↔ s.refAt d.number = some d ∧ a.number < d.number)
        ∧ Linked (a :: result.attached) ∧ result.attached.getLastD a = candidate
    | none => ∃ range, s.coverage.getLast? = some range
        ∧ (∀ d, d ∈ result.detached ↔ s.refAt d.number = some d ∧ range.Has d.number)
        ∧ result.attached.head?.map BlockRef.number = some range.start
        ∧ Linked result.attached ∧ result.attached.getLast? = some candidate

/-- What a result says about the chain before and after. -/
structure Effect (c : Canonicalizer) (s t : MemoryChain B H) (candidate : BlockRef H)
    (result : ApplyResult H) : Prop where
  canonical : t.canonical = insertAll BlockRef.number BlockRef.hash result.attached
    (eraseAll BlockRef.number result.detached s.canonical)
  oldTip : result.oldTip = s.tip
  newTip : t.tip = some result.newTip
  applied : result.disposition ≠ .alreadyKnown → result.newTip = candidate
  extent : Extent s candidate result
  /-- The detached blocks are listed downwards from the old tip. -/
  downwards : (result.detached.map BlockRef.number).Pairwise fun upper lower => lower < upper
  fromTip : ∀ first, result.detached.head? = some first → s.tip = some first
  depth : result.detached.length ≤ c.maxReorgDepth.val
  unfinalized : ∀ f ∈ s.finality.bind Finality.finalized, ∀ d ∈ result.detached,
    f.number < d.number

/-! ## Writes -/

section Writes

variable {c : Canonicalizer} {s t : MemoryChain B H} {tip candidate : BlockRef H}
  {copies items : List (BlockRef H × B)} {ancestor : Option (BlockRef H)}

/-- A write without detached blocks. -/
theorem Effect.of_moved {disposition : Disposition} {newTip : BlockRef H} (h : Moved s t [] copies)
    (hrefs : copies.map fst = items.map fst) (hnew : t.tip = some newTip)
    (hcandidate : disposition ≠ .alreadyKnown → newTip = candidate)
    (hextent : Extent s candidate ⟨disposition, s.tip, newTip, ancestor, [], items.map fst⟩) :
    Effect c s t candidate ⟨disposition, s.tip, newTip, ancestor, [], items.map fst⟩ where
  canonical := by
    show _ = insertAll _ _ (items.map fst) _
    rw [← hrefs, insertAll_map]
    exact h.canonical
  oldTip := rfl
  newTip := hnew
  applied := hcandidate
  extent := hextent
  downwards := Pairwise.nil
  fromTip := fun _ hfirst => by cases hfirst
  depth := Nat.zero_le _
  unfinalized := fun _ _ _ hd => absurd hd not_mem_nil

variable {detached : List (BlockRef H)}

/-- A write that cuts the chain. -/
theorem Effect.of_rebased {cut : Uint64}
    (h : Rebased s t cut detached copies) (hrefs : copies.map fst = items.map fst)
    (hcanonical : ∀ d ∈ detached, s.refAt d.number = some d)
    (hdown : (detached.map BlockRef.number).Pairwise fun upper lower => lower < upper)
    (htip : s.tip = some tip) (hnew : t.tip = some candidate)
    (hdepth : detached.length ≤ c.maxReorgDepth.val)
    (hfinal : ∀ f ∈ s.finality.bind Finality.finalized, ∀ d ∈ detached, f.number < d.number)
    (hextent : Extent s candidate
      ⟨.reorganized, some tip, candidate, ancestor, detached, items.map fst⟩) :
    Effect c s t candidate
      ⟨.reorganized, some tip, candidate, ancestor, detached, items.map fst⟩ where
  canonical := by
    show _ = insertAll _ _ (items.map fst) _
    rw [← hrefs, insertAll_map]
    exact h.moved.canonical
  oldTip := htip.symm
  newTip := hnew
  applied := fun _ => rfl
  extent := hextent
  downwards := hdown
  fromTip := fun _ hfirst => h.head_tip hcanonical hdown hfirst
  depth := hdepth
  unfinalized := hfinal

omit [DecidableEq H] [ChainBundle B H] in
/-- The blocks from the cut on are those above the ancestor. -/
theorem succ_le_iff_lt {a n : Uint64} (hmax : a ≠ maxUint64) : a + 1 ≤ n ↔ a < n := by
  rw [Fin.le_def, Fin.lt_def, val_add_one hmax]
  exact Nat.succ_le_iff

/-- A rebase onto a branch from an ancestor. -/
theorem Effect.through {a : BlockRef H} (h : Rebased s t (a.number + 1) detached copies)
    (hcopies : Forall₂ (fun b p => cloneBundle b = .ok p.2) (items.map snd) copies)
    (hbranch : Branch candidate a items) (ha : s.refAt a.number = some a)
    (hmax : a.number ≠ maxUint64) (hcanonical : ∀ d ∈ detached, s.refAt d.number = some d)
    (hdown : (detached.map BlockRef.number).Pairwise fun upper lower => lower < upper)
    (htip : s.tip = some tip) (hdepth : detached.length ≤ c.maxReorgDepth.val)
    (hfinal : ∀ f ∈ s.finality.bind Finality.finalized, f.number ≤ a.number) :
    Effect c s t candidate
      ⟨.reorganized, some tip, candidate, some a, detached, items.map fst⟩ := by
  have hrefs := copies_refs hbranch.valid h.moved.owned hcopies
  have hmem : ∀ d, d ∈ detached ↔ s.refAt d.number = some d ∧ a.number < d.number := by
    intro d
    rw [h.mem_detached hcanonical, succ_le_iff_lt hmax]
  refine Effect.of_rebased h hrefs hcanonical hdown htip (rebased_tip h hrefs hbranch ha hmax rfl)
    hdepth (fun f hf d hd => ?_) ⟨ha, hmem, hbranch.linked, hbranch.last⟩
  exact lt_of_le_of_lt (hfinal f hf) ((hmem d).mp hd).2

variable [ToString H] {start : Uint64}

/-- **A reported write** has the effect that is reported. -/
theorem Reports.effect {result : ApplyResult H} {call : Call B H} {u : Unit}
    (hs : WellFormed s) (hconfigured : s.configuredStart = some start) (htip : s.tip = some tip)
    (hdisc : call.Disciplined s) (hreports : Reports c s tip candidate result call)
    (hrun : call.exec.run s = (.ok u, t)) : Effect c s t candidate result := by
  have hnew : t.tip = some candidate := hreports.heads.tip_eq hs hdisc hrun
  cases call with
  | applyReorg reorg =>
    obtain ⟨items, hattached, hbranch, rfl, hdepth, hcanonical, hfinal⟩ := hreports
    obtain ⟨copies, hrebased, hmax, hcopies⟩ := applyReorg_rebased hs hdisc hrun
    rw [hattached] at hcopies
    exact Effect.through hrebased hcopies hbranch hdisc.1 hmax hcanonical
      (applyReorg_downwards hs hrun) htip hdepth hfinal
  | replaceHighestCanonicalSegment replacement =>
    obtain ⟨items, hattached, hbranch, rfl, hdepth⟩ := hreports
    obtain ⟨coverage, hreplace, rfl⟩ := Tx.run_map_ok hrun
    obtain ⟨copies, hrebased, hacc, hmax⟩ :=
      replaceHighestCanonicalSegment_rebased hs hdisc hreplace
    obtain ⟨_, heff⟩ := replaceHighestCanonicalSegment_effect hs hconfigured hreplace
    have hdown := descends_downwards hacc.descends
    have hcopies := hacc.copies
    rw [hattached] at hcopies
    cases hanc : replacement.ancestor with
    | some a =>
      rw [hanc] at hbranch
      rw [SparseCanonicalReplacement.cut, hanc] at hrebased
      exact Effect.through hrebased hcopies hbranch.1 (hdisc a hanc).1 (hmax a hanc)
        heff.detached hdown htip hdepth hbranch.2
    | none =>
      rw [hanc] at hbranch
      rw [SparseCanonicalReplacement.cut, hanc] at hrebased
      obtain ⟨⟨p, rest, rfl, hstart, hvalid, hbranch⟩, hfinal⟩ := hbranch
      have hvalid' : ∀ q ∈ p :: rest, Valid q := by
        intro q hq
        rcases mem_cons.mp hq with rfl | hq
        · exact hvalid
        · exact hbranch.valid q hq
      have hrefs := copies_refs hvalid' hacc.owned hcopies
      -- the range ends at the tip, so everything canonical above its start is in it
      have hmem : ∀ d, d ∈ replacement.detached.val ↔
          s.refAt d.number = some d ∧ replacement.range.Has d.number := by
        intro d
        rw [hrebased.mem_detached heff.detached]
        refine ⟨fun hd => ⟨hd.1, hd.2, ?_⟩, fun hd => ⟨hd.1, hd.2.1⟩⟩
        have hstop := heff.tip
        rw [htip] at hstop
        rw [← some.inj hstop]
        exact (hs.tip_some.mp htip).2 d.number (by rw [hd.1]; exact some_ne_none _)
      refine Effect.of_rebased hrebased hrefs heff.detached hdown htip hnew hdepth
        (fun f hf d hd => ?_) ⟨replacement.range, heff.highest, hmem, ?_, hbranch.linked, ?_⟩
      · exact lt_of_lt_of_le (hfinal f hf) ((hmem d).mp hd).2.1
      · rw [map_cons, head?_cons, map_some, hstart]
      · rw [map_cons]
        rcases hbranch.cases_last with ⟨rfl, rfl⟩ | hlast
        · rfl
        · rw [getLast?_cons, hlast]
          rfl
  | _ => exact absurd hreports id

/-! ## Commits -/

/-- On a configured index an extension is committed as one segment. -/
theorem commitCanonicalBundles_moved
    (hs : WellFormed s) (hconfigured : s.configuredStart = some start)
    (hextends : Extends s candidate items) :
    (Canonicalizer.commitCanonicalBundles items).Sat quietWorld
      (fun out t => ∀ value, out = .ok value → ∃ copies : List (BlockRef H × B),
        copies.map fst = items.map fst ∧ Moved s t [] copies) s := by
  cases items with
  | nil =>
    rintro _ -
    exact ⟨[], rfl, hs, hs, fun _ hp => absurd hp not_mem_nil, isChain_nil, rfl⟩
  | cons item rest =>
    refine sat_then (readCoverage_ends quietWorld_repo hs _) (fun coverage t ht hread => ?_)
      fun _ _ _ _ hout => by cases hout
    cases ht
    rw [hconfigured] at hread
    subst hread
    refine quiet_call fun out t hrun value hvalue => ?_
    cases out with
    | error err => cases hvalue
    | ok _ =>
      obtain ⟨result, hsegment, rfl⟩ := Tx.run_map_ok hrun
      obtain ⟨copies, start, hcopies, heff⟩ := commitCanonicalSegment_effect hs hsegment
      refine ⟨copies, ?_, heff.moved⟩
      exact copies_refs (hextends.last (cons_ne_nil _ _)).1 heff.moved.owned
        (validateCanonicalSegment_ok hcopies).2.2.2

theorem commit_effect (hs : WellFormed s) (hconfigured : s.configuredStart = some start)
    (hextends : Extends s candidate items) :
    (Canonicalizer.commitCanonicalBundles items).Sat quietWorld
      (fun out t => ∀ value, out = .ok value →
        Effect c s t candidate (commitResult s candidate items)) s := by
  refine ((commitCanonicalBundles_moved hs hconfigured hextends).and
    (commitCanonicalBundles_outcome hs hextends)).mono ?_
  rintro out t ⟨hmoved, hends⟩ value rfl
  obtain ⟨copies, hrefs, hmoved⟩ := hmoved value rfl
  refine Effect.of_moved hmoved hrefs hends.2 (fun _ => rfl) ?_
  cases htip : s.tip with
  | none =>
    rw [Extends, htip] at hextends
    obtain ⟨bundle, rfl, -⟩ := hextends
    exact ⟨htip, rfl, rfl⟩
  | some tip =>
    rw [Extends, htip] at hextends
    obtain ⟨hread, hhighest⟩ := hs.tip_some.mp htip
    refine ⟨hread, fun d => ⟨fun hd => absurd hd not_mem_nil, fun hd => ?_⟩,
      hextends.linked, hextends.last⟩
    have hle := hhighest d.number (by rw [hd.1]; exact some_ne_none _)
    exact absurd hd.2 (not_lt.mpr hle)

end Writes

/-! ## Whole applies -/

variable [ToString H]

/-- **What an apply returns is what it did.**  On a configured index that satisfies the
    canonical invariant, whatever the block sources answer: the canonical map loses the
    detached and gains the attached blocks, the new tip is the canonical tip and the
    candidate unless that was known already, the detached blocks are all canonical blocks
    above the ancestor or in the replaced range, from the old tip down, the attached
    blocks lead from there to the candidate, and the detached blocks are at most
    `maxReorgDepth` many and above the finalized height. -/
theorem apply_effect {start : Uint64} {s t : MemoryChain B H} (hinv : CanonicalInvariant start s)
    (c : Canonicalizer) (bundle : B) (authoritativeHead : Bool) (result : ApplyResult H)
    (hruns : (c.apply bundle authoritativeHead).Runs memoryServes s (.ok result) t) :
    ∃ candidate, refFromBundle bundle = .ok candidate ∧ Effect c s t candidate result := by
  have hs := hinv.wellFormed
  have hsat : (c.apply bundle authoritativeHead).Sat quietWorld
      (fun out t => ∀ result, out = .ok result →
        ∃ candidate, refFromBundle bundle = .ok candidate
          ∧ Effect c s t candidate result) s := by
    refine Canonicalizer.apply_admits quietWorld_repo hs
      (fun _ _ _ _ hout => by cases hout) fun candidate u hvalid hu => ?_
    cases hu
    refine ⟨?_, ?_, ?_, ?_⟩
    · rintro _ _ - _ ⟨⟩
    · rintro tip _ htip rfl - - _ ⟨⟩
      refine ⟨candidate, hvalid.1, ?_⟩
      have hsame : Moved s s [] ([] : List (BlockRef H × B)) :=
        ⟨hs, hs, fun _ hp => absurd hp not_mem_nil, isChain_nil, rfl⟩
      have heff : Effect c s s candidate ⟨.alreadyKnown, s.tip, tip, none, [], []⟩ :=
        Effect.of_moved hsame rfl htip (fun h => absurd rfl h) ⟨rfl, rfl⟩
      rwa [htip] at heff
    · rintro result tip call _ u htip rfl - hdisc hreports hrun _ ⟨⟩
      exact ⟨candidate, hvalid.1, hreports.effect hs hinv.configured htip hdisc hrun⟩
    · rintro items _ wrap rfl hextends
      refine sat_bind.mpr (sat_mapError.mpr ?_)
      refine (commit_effect (c := c) hs hinv.configured hextends).mono ?_
      rintro (err | value) t heff
      · rintro _ ⟨⟩
      · rintro _ ⟨⟩
        exact ⟨candidate, hvalid.1, heff value rfl⟩
  exact hsat.runs hruns result rfl

/-- A sibling of the block at height 2 becomes the head. -/
def siblingRun :
    IndexM TermBundle TermHash (ApplyResult TermHash) × MemoryChain TermBundle TermHash :=
  (plainCanonicalizer.apply ⟨2, block1.hash, 1⟩ true).advance memoryServe (fun _ _ => true) 40
    threeBlocks

theorem apply_effect_sibling : CanonicalInvariant 0 threeBlocks
      ∧ ∃ result t, (plainCanonicalizer.apply (⟨2, block1.hash, 1⟩ : TermBundle) true).Runs
          memoryServes threeBlocks (.ok result) t
        ∧ result.detached = [block2.ref] ∧ result.ancestor = some block1.ref
        ∧ ∃ candidate, Effect plainCanonicalizer threeBlocks t candidate result := by
  refine ⟨threeBlocks_invariant, ?_⟩
  have hresult : siblingRun.1.result.map (fun out => out.toOption.map fun result =>
      (result.detached, result.ancestor)) = some (some ([block2.ref], some block1.ref)) := by
    decide +kernel
  obtain ⟨out, hout, hfields⟩ := map_eq_some_iff.mp hresult
  have hrun := runs_advance memoryServes_serve 40 hout
  cases out with
  | error err => cases hfields
  | ok result =>
    obtain ⟨candidate, -, heffect⟩ := apply_effect threeBlocks_invariant _ _ _ _ hrun
    obtain ⟨hdetached, hancestor⟩ := mk.inj (some.inj hfields)
    exact ⟨result, _, hrun, hdetached, hancestor, candidate, heffect⟩

end Indexer
