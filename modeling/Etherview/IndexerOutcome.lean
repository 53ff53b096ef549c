import Etherview.IndexerLane
import Etherview.StoreBoundary

/-! # Undisturbed applies

    Without other lanes an `apply` that fails has changed nothing, and a head that is
    applied becomes the tip (`apply_outcome`).  The one place with several writes is
    the extension of an index without a configured start, which commits its bundles
    one by one: only the first of these commits can fail (`commitEach_outcome`). -/

namespace Indexer

open Store Interaction Transact IntervalSet List Prog Fin Prod

variable {B H : Type} [DecidableEq H] [ChainBundle B H]

/-! ## Where a write leads -/

variable {copies : List (BlockRef H × B)}

omit [DecidableEq H] in
theorem copies_refs {items : List (BlockRef H × B)} (hvalid : ∀ p ∈ items, Valid p)
    (howned : ∀ p ∈ copies, Owned p)
    (h : Forall₂ (fun b p => cloneBundle b = .ok p.2) (items.map Prod.snd) copies) :
    copies.map Prod.fst = items.map Prod.fst := by
  induction items generalizing copies with
  | nil =>
    cases h
    rfl
  | cons item items ih =>
    obtain ⟨copy, copies', hclone, hrest, rfl⟩ := forall₂_cons_left_iff.mp h
    have hcopy := (howned copy mem_cons_self).1
    rw [refFromBundle_clone hclone, (hvalid item mem_cons_self).1] at hcopy
    rw [map_cons, map_cons, ← Except.ok.inj hcopy,
      ih (fun p hp => hvalid p (mem_cons_of_mem _ hp))
        (fun p hp => howned p (mem_cons_of_mem _ hp)) hrest]

variable {items : List (BlockRef H × B)} {candidate base : BlockRef H}

omit [DecidableEq H] in
/-- The end of a branch: its base when it is empty, its last block otherwise. -/
theorem Branch.cases_last (h : Branch candidate base items) :
    (items = [] ∧ base = candidate) ∨ (items.map fst).getLast? = some candidate := by
  have hlast := h.last
  cases items with
  | nil => exact .inl ⟨rfl, hlast⟩
  | cons item items =>
    rw [getLastD_eq_getLast?] at hlast
    obtain ⟨last, hsome⟩ : ∃ last, ((item :: items).map fst).getLast? = some last :=
      ⟨_, getLast?_eq_some_getLast (cons_ne_nil _ _)⟩
    exact .inr (congrArg some hlast)

variable {s t : MemoryChain B H}

theorem rebased_tip {cut : Uint64} {detached : List (BlockRef H)}
    (h : Rebased s t cut detached copies) (hrefs : copies.map fst = items.map fst)
    (hbranch : Branch candidate base items) (hbase : s.refAt base.number = some base)
    (hmax : base.number ≠ maxUint64) (hcut : cut = base.number + 1) : t.tip = some candidate := by
  rcases hbranch.cases_last with ⟨rfl, rfl⟩ | hlast
  · exact h.tip_base (map_eq_nil_iff.mp hrefs) hbase hmax hcut
  · rw [← hrefs] at hlast
    exact h.tip_last hlast

variable [ToString H] {candidate : BlockRef H}

/-- **A disciplined write that heads for the candidate** makes it the tip. -/
theorem Heads.tip_eq {call : Call B H} {u : Unit}
    (hs : WellFormed s) (hdisc : call.Disciplined s) (hheads : Heads candidate call)
    (hrun : call.exec.run s = (.ok u, t)) : t.tip = some candidate := by
  cases call with
  | applyReorg reorg =>
    obtain ⟨items, hattached, hbranch⟩ := hheads
    obtain ⟨copies, hrebased, hmax, hcopies⟩ := applyReorg_rebased hs hdisc hrun
    rw [hattached] at hcopies
    exact rebased_tip hrebased (copies_refs hbranch.valid hrebased.moved.owned hcopies) hbranch
      hdisc.1 hmax rfl
  | replaceHighestCanonicalSegment replacement =>
    obtain ⟨items, hattached, hbranch⟩ := hheads
    obtain ⟨result, hreplace, rfl⟩ := Tx.run_map_ok hrun
    obtain ⟨copies, hrebased, hacc, hmax⟩ :=
      replaceHighestCanonicalSegment_rebased hs hdisc hreplace
    have hcopies := hacc.copies
    rw [hattached] at hcopies
    cases hanc : replacement.ancestor with
    | some a =>
      rw [hanc] at hbranch
      have hcut : replacement.cut = a.number + 1 := by
        rw [SparseCanonicalReplacement.cut, hanc]
      exact rebased_tip hrebased (copies_refs hbranch.valid hacc.owned hcopies) hbranch
        (hdisc a hanc).1 (hmax a hanc) hcut
    | none =>
      rw [hanc] at hbranch
      obtain ⟨p, rest, rfl, hvalid, hbranch⟩ := hbranch
      have hvalid' : ∀ q ∈ p :: rest, Valid q := by
        intro q hq
        rcases mem_cons.mp hq with rfl | hq
        · exact hvalid
        · exact hbranch.valid q hq
      refine hrebased.tip_last ?_
      rw [copies_refs hvalid' hacc.owned hcopies, map_cons]
      rcases hbranch.cases_last with ⟨rfl, rfl⟩ | hlast
      · rfl
      · rw [getLast?_cons, hlast]
        rfl
  | _ => exact absurd hheads id

/-! ## Extensions -/

omit [ToString H] in
/-- The tip after a commit above everything canonical. -/
theorem moved_tip {last : BlockRef H}
    (h : Moved s t [] copies) (hlast : (copies.map fst).getLast? = some last)
    (habove : ∀ n, s.refAt n ≠ none → n ≤ last.number) : t.tip = some last := by
  obtain ⟨p, hp, rfl⟩ := mem_map.mp (mem_of_getLast? hlast)
  refine h.after.tip_some.mpr ⟨h.refAt_attached hp, fun n hn => ?_⟩
  rcases (h.refAt_ne_none n).mp hn with ⟨hold, -⟩ | ⟨q, hq, rfl⟩
  · exact habove n hold
  · exact h.linked.le_last hlast (mem_map_of_mem hq)

variable {s : MemoryChain B H}

section

omit [ToString H]

/-- What is committed lies above everything canonical. -/
theorem Extends.above (hs : WellFormed s) (h : Extends s candidate items)
    {n : Uint64} (hn : s.refAt n ≠ none) : ∀ p ∈ items, n < p.1.number := by
  intro p hp
  cases htip : s.tip with
  | none => exact absurd (hs.tip_none.mp htip n) hn
  | some tip =>
    rw [Extends, htip] at h
    have hle := (hs.tip_some.mp htip).2 n hn
    have hmem : p.1 ∈ items.map fst := mem_map_of_mem hp
    obtain ⟨first, rest, hfirst⟩ := exists_cons_of_ne_nil (ne_nil_of_mem hmem)
    have hlinked := h.linked
    rw [hfirst] at hlinked hmem
    have hnext := hlinked.head_follows.val_succ
    have hfirstle := hlinked.tail.le_of_mem hmem
    rw [le_def] at hle hfirstle
    rw [lt_def]
    omega

/-- The candidate is the last of what is committed, or the tip already. -/
theorem Extends.last (h : Extends s candidate items) (hne : items ≠ []) :
    (∀ p ∈ items, Valid p) ∧ (items.map fst).getLast? = some candidate := by
  cases htip : s.tip with
  | none =>
    rw [Extends, htip] at h
    obtain ⟨bundle, rfl, hvalid⟩ := h
    refine ⟨fun p hp => ?_, rfl⟩
    rw [mem_singleton.mp hp]
    exact hvalid
  | some tip =>
    rw [Extends, htip] at h
    exact ⟨h.valid, h.cases_last.resolve_left fun hnil => hne hnil.1⟩

variable {r : BlockRef H} {bundle : B}

/-- The block after everything canonical, once it is committed, is the tip, and the
    checkpoint has followed. -/
theorem commitCanonical_tip {u : Unit} (hs : WellFormed s) (hvalid : Valid (r, bundle))
    (habove : ∀ n, s.refAt n ≠ none → n < r.number)
    (hrun : (commitCanonical bundle (newCoreCheckpoint r)).run s = (.ok u, t)) :
    t.tip = some r ∧ t.checkpoints.lookup coreCheckpoint = some (newCoreCheckpoint r) := by
  have ht := commitCanonical_wellFormed hs hrun
  obtain ⟨copy, reference, hcopy, href, -, -, hcase⟩ := commitCanonical_run.mp hrun
  have hsame : reference = r := by
    rw [refFromBundle_clone hcopy, hvalid.1] at href
    exact (Except.ok.inj href).symm
  subst hsame
  have hfree : s.refAt reference.number = none := by
    by_contra hne
    exact lt_irrefl _ (habove _ hne)
  rcases hcase with ⟨hlook, -⟩ | ⟨-, -, hafter⟩
  · rw [hs.refAt_eq_none.mp hfree] at hlook
    cases hlook
  · have hmoved : Moved s t [] [(reference, copy)] := by
      refine ⟨hs, ht, fun p hp => ?_, isChain_singleton _, by rw [hafter]; rfl⟩
      rw [mem_singleton.mp hp]
      exact Owned.of_clone hcopy href
    refine ⟨moved_tip hmoved rfl fun n hn => (habove n hn).le, ?_⟩
    rw [hafter]
    exact Finmap.lookup_insert _

/-- The block after the tip is committed when the checkpoint is not ahead of the tip. -/
theorem commitCanonical_accepted
    (hs : WellFormed s) (hvalid : Valid (r, bundle)) (htip : s.tip = some base)
    (hfollows : Follows base r)
    (hcheckpoint : ∀ previous, s.checkpoints.lookup coreCheckpoint = some previous →
      previous.contiguousThrough ≤ base.number) :
    ∃ t, (commitCanonical bundle (newCoreCheckpoint r)).run s = (.ok (), t) := by
  obtain ⟨href, copy, hcopy⟩ := hvalid
  have hclone : cloneBundle bundle = .ok copy := cloneBundle_eq_ok.mpr hcopy
  have hlt : base.number < r.number := by
    rw [lt_def, hfollows.val_succ]
    exact Nat.lt_succ_self _
  refine ⟨_, commitCanonical_run.mpr ⟨copy, r, hclone, (refFromBundle_clone hclone).trans href,
    ?_, ?_, .inr ⟨?_, ⟨some base, hs.memoryTip_eq.trans (by rw [htip]), ?_⟩, rfl⟩⟩⟩
  · simp [validateCheckpoint, newCoreCheckpoint, coreCheckpoint, bind_eq_ok, failIf_eq_ok]
  · show checkMemoryCheckpoint s (newCoreCheckpoint r) false = .ok ()
    cases hprevious : s.checkpoints.lookup coreCheckpoint with
    | none => simp [checkMemoryCheckpoint, newCoreCheckpoint, hprevious]
    | some previous =>
      have hbehind := lt_of_le_of_lt (hcheckpoint previous hprevious) hlt
      simp only [checkMemoryCheckpoint, newCoreCheckpoint, hprevious]
      exact bind_eq_ok.mpr ⟨(), failIf_eq_ok.mpr hbehind.not_gt,
        failIf_eq_ok.mpr fun h => hbehind.ne' h.1⟩
  · rw [← hs.refAt_eq_none]
    by_contra hne
    exact absurd ((hs.tip_some.mp htip).2 _ hne) (not_le.mpr hlt)
  · rw [checkExtendsTip, failIf_eq_ok]
    rintro (hnumber | hparent)
    · exact hnumber hfollows.2.1
    · exact hparent hfollows.2.2

end

/-! ## Whole commits -/

theorem quiet_call {call : Call B H} {wrap : StoreError → IndexError}
    {post : Except IndexError Unit → MemoryChain B H → Prop}
    (h : ∀ out t, call.exec.run s = (out, t) → post (out.mapError wrap) t) :
    (callRepository call wrap).Sat quietWorld post s := by
  refine sat_query.mpr fun u hu => ⟨trivial, fun answer t hserve => ?_⟩
  cases hu
  have hout := h answer t hserve
  cases answer with
  | error err => exact hout
  | ok value => exact hout

/-- What a commit through to the candidate comes to. -/
def CommitEnds (s : MemoryChain B H) (candidate : BlockRef H) :
    Except IndexError Unit → MemoryChain B H → Prop
  | .ok _, t => WellFormed t ∧ t.tip = some candidate
  | .error _, t => t = s

/-- Behind a checkpoint that is not ahead of the tip, no commit of a branch on the tip
    fails. -/
theorem commitEach_succeeds (hs : WellFormed s) (htip : s.tip = some base)
    (hcheckpoint : ∀ previous, s.checkpoints.lookup coreCheckpoint = some previous →
      previous.contiguousThrough ≤ base.number) (hbranch : Branch candidate base items) :
    (Canonicalizer.commitEach items).Sat quietWorld
      (fun out t => out = .ok () ∧ WellFormed t ∧ t.tip = some candidate) s := by
  induction items generalizing s base with
  | nil =>
    refine ⟨rfl, hs, ?_⟩
    rw [htip]
    exact congrArg some hbranch.last
  | cons item rest ih =>
    obtain ⟨r, bundle⟩ := item
    have hvalid := hbranch.valid (r, bundle) mem_cons_self
    obtain ⟨hfollows, hlinked⟩ := isChain_cons_cons.mp hbranch.linked
    obtain ⟨t, hrun⟩ := commitCanonical_accepted hs hvalid htip hfollows hcheckpoint
    refine sat_bind.mpr (quiet_call fun out t' hout => ?_)
    cases hrun.symm.trans hout
    have habove : ∀ n, s.refAt n ≠ none → n < r.number := by
      intro n hn
      have hle := (hs.tip_some.mp htip).2 n hn
      have hnext : r.number.val = base.number.val + 1 := hfollows.val_succ
      rw [le_def] at hle
      rw [lt_def]
      omega
    obtain ⟨htip', hcheckpoint'⟩ := commitCanonical_tip hs hvalid habove hrun
    refine ih (commitCanonical_wellFormed hs hrun) htip' (fun previous hprevious => ?_)
      ⟨fun p hp => hbranch.valid p (mem_cons_of_mem _ hp), hlinked, ?_⟩
    · rw [hcheckpoint'] at hprevious
      cases hprevious
      exact le_rfl
    · have hlast := hbranch.last
      rw [map_cons, getLastD_cons] at hlast
      exact hlast

/-- **Committing one by one** fails at the first commit or not at all. -/
theorem commitEach_outcome (hs : WellFormed s) (hne : items ≠ [])
    (hextends : Extends s candidate items) :
    (Canonicalizer.commitEach items).Sat quietWorld (CommitEnds s candidate) s := by
  obtain ⟨⟨r, bundle⟩, rest, rfl⟩ := exists_cons_of_ne_nil hne
  obtain ⟨hvalid, hlast⟩ := hextends.last hne
  refine sat_bind.mpr (quiet_call fun out t hrun => ?_)
  cases out with
  | error err => exact Call.atomic hs.unconfigured hrun
  | ok value =>
    have habove := fun n hn => hextends.above hs (n := n) hn (r, bundle) mem_cons_self
    obtain ⟨htip, hcheckpoint⟩ := commitCanonical_tip hs (hvalid _ mem_cons_self) habove hrun
    have hbranch : Branch candidate r rest := by
      refine ⟨fun p hp => hvalid p (mem_cons_of_mem _ hp), ?_, ?_⟩
      · cases hprevious : s.tip with
        | none =>
          rw [Extends, hprevious] at hextends
          obtain ⟨_, hsingle, -⟩ := hextends
          cases hsingle
          exact isChain_singleton _
        | some base =>
          rw [Extends, hprevious] at hextends
          exact (isChain_cons_cons.mp hextends.linked).2
      · rw [map_cons, getLast?_cons] at hlast
        rw [getLastD_eq_getLast?]
        exact Option.some.inj hlast
    refine (commitEach_succeeds (commitCanonical_wellFormed hs hrun) htip ?_ hbranch).mono ?_
    · intro previous hprevious
      rw [hcheckpoint] at hprevious
      cases hprevious
      exact le_rfl
    · rintro out u ⟨rfl, hu⟩
      exact hu

/-- **The commit of an extension** makes the candidate the tip or changes nothing. -/
theorem commitCanonicalBundles_outcome (hs : WellFormed s) (hextends : Extends s candidate items) :
    (Canonicalizer.commitCanonicalBundles items).Sat quietWorld (CommitEnds s candidate) s := by
  cases items with
  | nil =>
    refine ⟨hs, ?_⟩
    cases htip : s.tip with
    | none =>
      rw [Extends, htip] at hextends
      obtain ⟨_, hnil, -⟩ := hextends
      cases hnil
    | some tip =>
      rw [Extends, htip] at hextends
      exact congrArg some hextends.last
  | cons item rest =>
    refine sat_then (readCoverage_ends quietWorld_repo hs _) (fun coverage t ht _ => ?_)
      fun _ _ ht => ht.symm
    cases ht
    cases coverage with
    | none => exact commitEach_outcome hs (cons_ne_nil _ _) hextends
    | some coverage =>
      refine quiet_call fun out t hrun => ?_
      cases out with
      | error err => exact Call.atomic hs.unconfigured hrun
      | ok value =>
        obtain ⟨result, hsegment, rfl⟩ := Tx.run_map_ok hrun
        obtain ⟨copies, start, hcopies, heff⟩ := commitCanonicalSegment_effect hs hsegment
        obtain ⟨hvalid, hlast⟩ := hextends.last (cons_ne_nil _ _)
        have hrefs := copies_refs hvalid heff.moved.owned
          (validateCanonicalSegment_ok hcopies).2.2.2
        rw [← hrefs] at hlast
        refine ⟨heff.moved.after, moved_tip heff.moved hlast fun n hn => ?_⟩
        obtain ⟨p, hp, hpc⟩ := mem_map.mp (mem_of_getLast? (hrefs ▸ hlast))
        rw [← hpc]
        exact (hextends.above hs hn p hp).le

/-! ## Whole applies -/

/-- What an undisturbed `apply` comes to. -/
def ApplyEnds (s : MemoryChain B H) (bundle : B) (authoritativeHead : Bool) :
    Except IndexError (ApplyResult H) → MemoryChain B H → Prop
  | .ok _, t => WellFormed t
      ∧ (authoritativeHead = true → ∃ r, refFromBundle bundle = .ok r ∧ t.tip = some r)
  | .error _, t => t = s

/-- **An undisturbed apply** changes nothing when it fails, and makes an applied head
    the tip. -/
theorem Canonicalizer.apply_outcome (c : Canonicalizer) (hs : WellFormed s)
    (bundle : B) (authoritativeHead : Bool) :
    (c.apply bundle authoritativeHead).Sat quietWorld (ApplyEnds s bundle authoritativeHead) s := by
  refine c.apply_sat quietWorld_repo hs (fun _ _ ht => ht.symm) fun candidate t hvalid ht => ?_
  cases ht
  refine ⟨fun _ _ hu => hu.symm, ?_, ?_, ?_⟩
  · rintro result tip _ htip rfl hcandidate hhead
    refine ⟨hs, fun hauthoritative => ⟨candidate, hvalid.1, ?_⟩⟩
    refine hs.tip_some.mpr ⟨hcandidate, fun n hn => ?_⟩
    exact le_trans ((hs.tip_some.mp htip).2 n hn) (hhead hauthoritative)
  · rintro result call _ u rfl _ hdisc hheads hrun
    have hnext : call.next s = u := by rw [Call.next, hrun]
    refine ⟨hnext ▸ call.wellFormed hs, fun _ => ⟨candidate, hvalid.1, ?_⟩⟩
    exact hheads.tip_eq hs hdisc hrun
  · rintro items _ result wrap rfl hextends
    refine sat_bind.mpr (sat_mapError.mpr ?_)
    refine (commitCanonicalBundles_outcome hs hextends).mono ?_
    rintro (err | value) u hu
    · exact hu
    · exact ⟨hu.1, fun _ => ⟨candidate, hvalid.1, hu.2⟩⟩

/-- **Failures change nothing.**  A repository method that returns an error leaves the
    chain as it was: blocks, canonical map, checkpoints, finality, journals, coverage
    and leases.  So does `Apply` or `ApplyHead` as a whole, with or without a configured
    start, whatever its source answers. -/
theorem failure_changes_nothing {s : MemoryChain B H} (hs : WellFormed s) :
    (∀ (call : Call B H) err t, call.exec.run s = (.error err, t) → t = s)
      ∧ ∀ (c : Canonicalizer) (bundle : B) (authoritativeHead : Bool) err t,
        (c.apply bundle authoritativeHead).Runs memoryServes s (.error err) t → t = s := by
  refine ⟨fun call err t hrun => Call.atomic hs.unconfigured hrun, ?_⟩
  intro c bundle authoritativeHead err t hruns
  exact (c.apply_outcome hs bundle authoritativeHead).runs hruns

/-- A chain of one block without a configured start. -/
def loneBlock : MemoryChain TermBundle TermHash :=
  (Call.commitCanonical block0 (newCoreCheckpoint block0.ref)).next .empty

/-- The run of an apply of a block whose parent is unknown. -/
def orphanRun :
    IndexM TermBundle TermHash (ApplyResult TermHash) × MemoryChain TermBundle TermHash :=
  (plainCanonicalizer.apply block2 true).advance memoryServe (fun _ _ => true) 20 loneBlock

/-- A block without its parent is refused by the repository and by `ApplyHead`. -/
theorem failure_changes_nothing_orphan :
    (∃ err, (Call.commitCanonical block2 (newCoreCheckpoint block2.ref)).exec.run loneBlock
        = (.error err, loneBlock))
      ∧ ∃ err, (plainCanonicalizer.applyHead block2).Runs memoryServes loneBlock (.error err)
        loneBlock := by
  have hwf : WellFormed loneBlock := (Call.commitCanonical _ _).wellFormed wellFormed_empty
  constructor
  · cases hrun : (Call.commitCanonical block2 (newCoreCheckpoint block2.ref)).exec.run
      loneBlock with
    | mk out t =>
      cases out with
      | ok value =>
        have hfails : ((Call.commitCanonical block2 (newCoreCheckpoint block2.ref)).exec.run
            loneBlock).1.toBool = false := by decide +kernel
        rw [hrun] at hfails
        cases hfails
      | error err =>
        rw [(failure_changes_nothing hwf).1 _ _ _ hrun]
        exact ⟨err, rfl⟩
  · have hfails : orphanRun.1.result.map Except.toBool = some false := by decide +kernel
    obtain ⟨out, hout, hbool⟩ := Option.map_eq_some_iff.mp hfails
    have hrun := runs_advance memoryServes_serve 20 hout
    cases out with
    | ok value => cases hbool
    | error err =>
      exact ⟨err, hrun⟩

end Indexer
