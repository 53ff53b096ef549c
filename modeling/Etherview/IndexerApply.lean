import Etherview.IndexerReads

/-! # The write of an apply

    `Apply` and `ApplyHead` end without a write, with one reorg or replacement, or
    with the commit of an extension.  `apply_admits` walks through the whole decision
    tree once: a postcondition holds of `apply` when it holds of these three endings
    (`Admits`).  Every write is disciplined and leads to the candidate, and the result
    reports what the write does, whatever the other lanes do between the reads. -/

namespace Indexer

open Store Interaction Transact IntervalSet List Prog Option Prod

variable {B H : Type}

theorem makeSlice_ok {α : Type} {l : List α} {slice : Slice α} (h : makeSlice l = .ok slice) :
    slice.val = l := by
  unfold makeSlice at h
  by_cases hlt : l.length < 9223372036854775808
  · rw [dif_pos hlt] at h
    cases h
    rfl
  · rw [dif_neg hlt] at h
    cases h

/-- A branch that reaches down to a lower block is not empty. -/
theorem detached_ne_nil {tip ancestor : BlockRef H} {detached : List (BlockRef H)}
    (hlt : ancestor.number < tip.number)
    (hlength : detached.length = (tip.number - ancestor.number).val) : detached ≠ [] := by
  rintro rfl
  rw [Fin.sub_val_of_le hlt.le, length_nil] at hlength
  rw [Fin.lt_def] at hlt
  omega

/-- A slice is shorter than a `uint64`, so its length is not wrapped. -/
theorem length_le_of_uint64 {slice : Slice (BlockRef H)} {limit : Uint64}
    (h : uint64 slice.val.length ≤ limit) : slice.val.length ≤ limit.val := by
  have hlt : slice.val.length < 18446744073709551616 := by
    have := slice.property
    omega
  rw [Fin.le_def, uint64_val hlt] at h
  exact h

variable [DecidableEq H] [ChainBundle B H] [ToString H]

/-! ## Endings -/

/-- A reorg or replacement whose attached branch leads from its ancestor, or from the
    start of the replaced range, to the candidate. -/
def Heads (candidate : BlockRef H) : Call B H → Prop
  | .applyReorg reorg => ∃ items, reorg.attached.val = items.map snd
      ∧ Branch candidate reorg.ancestor items
  | .replaceHighestCanonicalSegment replacement => ∃ items,
      replacement.attached.val = items.map snd ∧ match replacement.ancestor with
        | some a => Branch candidate a items
        | none => ∃ p rest, items = p :: rest ∧ Valid p ∧ Branch candidate p.1 rest
  | _ => False

/-- A disciplined write within the bounds of the canonicalizer, and the result that is
    returned with it: `Detached` and `Attached` are those of the write, not more blocks are
    detached than allowed, and none of them is finalized. -/
def Reports (c : Canonicalizer) (s : MemoryChain B H) (tip candidate : BlockRef H)
    (result : ApplyResult H) : Call B H → Prop
  | .applyReorg reorg => ∃ items, reorg.attached.val = items.map snd
      ∧ Branch candidate reorg.ancestor items
      ∧ result = ⟨.reorganized, some tip, candidate, some reorg.ancestor, reorg.detached.val,
          items.map fst⟩
      ∧ reorg.detached.val.length ≤ c.maxReorgDepth.val
      ∧ (∀ d ∈ reorg.detached.val, s.refAt d.number = some d)
      ∧ ∀ f ∈ s.finality.bind Finality.finalized, f.number ≤ reorg.ancestor.number
  | .replaceHighestCanonicalSegment replacement => ∃ items,
      replacement.attached.val = items.map snd
      ∧ (match replacement.ancestor with
        | some a => Branch candidate a items
            ∧ ∀ f ∈ s.finality.bind Finality.finalized, f.number ≤ a.number
        | none =>
          (∃ p rest, items = p :: rest ∧ p.1.number = replacement.range.start ∧ Valid p
              ∧ Branch candidate p.1 rest)
            ∧ ∀ f ∈ s.finality.bind Finality.finalized, f.number < replacement.range.start)
      ∧ result = ⟨.reorganized, some tip, candidate, replacement.ancestor,
          replacement.detached.val, items.map fst⟩
      ∧ replacement.detached.val.length ≤ c.maxReorgDepth.val
  | _ => False

variable {s : MemoryChain B H} {candidate : BlockRef H}

omit [ToString H] in
/-- A reported write leads to the candidate. -/
theorem Reports.heads {c : Canonicalizer} {tip : BlockRef H}
    {result : ApplyResult H} {call : Call B H} (h : Reports c s tip candidate result call) :
    Heads candidate call := by
  cases call with
  | applyReorg reorg =>
    obtain ⟨items, hattached, hbranch, -⟩ := h
    exact ⟨items, hattached, hbranch⟩
  | replaceHighestCanonicalSegment replacement =>
    obtain ⟨items, hattached, hbranch, -⟩ := h
    refine ⟨items, hattached, ?_⟩
    cases hancestor : replacement.ancestor with
    | some a =>
      rw [hancestor] at hbranch
      exact hbranch.1
    | none =>
      rw [hancestor] at hbranch
      obtain ⟨⟨p, rest, hitems, -, hvalid, hrest⟩, -⟩ := hbranch
      exact ⟨p, rest, hitems, hvalid, hrest⟩
  | _ => exact absurd h id

/-- The bundles of a commit continue the tip up to the candidate, or start the chain
    with it. -/
def Extends (s : MemoryChain B H) (candidate : BlockRef H) (items : List (BlockRef H × B)) :
    Prop :=
  match s.tip with
  | some tip => Branch candidate tip items
  | none => ∃ bundle, items = [(candidate, bundle)] ∧ Valid (candidate, bundle)

/-- What a postcondition of `apply` has to admit; `s` is the state in which the tip is
    read. -/
structure Settles (W : World (interface B H) (MemoryChain B H)) (s : MemoryChain B H)
    (candidate : BlockRef H) (authoritativeHead : Bool)
    (post : Except IndexError (ApplyResult H) → MemoryChain B H → Prop) : Prop where
  error : ∀ err t, W.rely s t → post (.error err) t
  known : ∀ result tip t, s.tip = some tip → W.rely s t →
    t.refAt candidate.number = some candidate →
    (authoritativeHead = true → tip.number ≤ candidate.number) → post (.ok result) t
  write : ∀ result call t u, W.rely s t → WellFormed t → call.Disciplined t →
    Heads candidate call → call.exec.run t = (.ok (), u) → post (.ok result) u
  commit : ∀ items t result wrap, W.rely s t → Extends s candidate items →
    ((Canonicalizer.commitCanonicalBundles items).mapError wrap >>= fun _ =>
      pure result).Sat W post t

/-- The result of a commit: the first block of an empty chain, or an extension. -/
def commitResult (s : MemoryChain B H) (candidate : BlockRef H) (items : List (BlockRef H × B)) :
    ApplyResult H :=
  ⟨match s.tip with
    | some _ => .extended
    | none => .initialized, s.tip, candidate, s.tip, [], items.map fst⟩

/-- What a postcondition of `apply` has to admit when it speaks about the result. -/
structure Admits (W : World (interface B H) (MemoryChain B H)) (c : Canonicalizer)
    (s : MemoryChain B H) (candidate : BlockRef H) (authoritativeHead : Bool)
    (post : Except IndexError (ApplyResult H) → MemoryChain B H → Prop) : Prop where
  error : ∀ err t, W.rely s t → post (.error err) t
  known : ∀ tip t, s.tip = some tip → W.rely s t →
    t.refAt candidate.number = some candidate →
    (authoritativeHead = true → tip.number ≤ candidate.number) →
    post (.ok ⟨.alreadyKnown, some tip, tip, none, [], []⟩) t
  write : ∀ result tip call t u, s.tip = some tip → W.rely s t → WellFormed t →
    call.Disciplined t → Reports c t tip candidate result call →
    call.exec.run t = (.ok (), u) →
    post (.ok result) u
  commit : ∀ items t wrap, W.rely s t → Extends s candidate items →
    ((Canonicalizer.commitCanonicalBundles items).mapError wrap >>= fun _ =>
      pure (commitResult s candidate items)).Sat W post t

/-- A postcondition that does not look at the result. -/
theorem Settles.admits {W : World (interface B H) (MemoryChain B H)} {authoritativeHead : Bool}
    {post : Except IndexError (ApplyResult H) → MemoryChain B H → Prop}
    (h : Settles W s candidate authoritativeHead post) (c : Canonicalizer) :
    Admits W c s candidate authoritativeHead post where
  error := h.error
  known := fun tip t htip hst hread hhead => h.known _ tip t htip hst hread hhead
  write := fun result _ call t u _ hst ht hdisc hreports hrun =>
    h.write result call t u hst ht hdisc hreports.heads hrun
  commit := fun items t wrap hst hextends => h.commit items t _ wrap hst hextends

section Apply

variable {W : World (interface B H) (MemoryChain B H)} {s t : MemoryChain B H}
  {candidate : BlockRef H} {authoritativeHead : Bool}
  {post : Except IndexError (ApplyResult H) → MemoryChain B H → Prop} {c : Canonicalizer}
  (hW : RepoWorld W) (hs : WellFormed s) (hst : W.rely s t)
  (hpost : Admits W c s candidate authoritativeHead post)
include hW hs hst hpost

/-- A disciplined write that reports what it does may end an application. -/
theorem write_sat {tip : BlockRef H} {call : Call B H} {wrap : StoreError → IndexError}
    {result : ApplyResult H} (htip : s.tip = some tip)
    (hcall : ∀ u, W.rely t u → WellFormed u → call.Disciplined u)
    (hreports : ∀ u, W.rely t u → WellFormed u → Reports c u tip candidate result call) :
    (callRepository call wrap >>= fun _ => pure result).Sat W post t := by
  refine sat_bind.mpr (call_sat hW (hW.wellFormed hs hst) hcall ?_ ?_)
  · intro u v htu hu hrun
    exact hpost.write result tip call u v htip (W.rely_trans hst htu) hu (hcall u htu hu)
      (hreports u htu hu) hrun
  · intro err u htu
    exact hpost.error _ u (W.rely_trans hst htu)

variable {u : MemoryChain B H}

omit hW hs in
theorem error_later (htu : W.rely t u) (err : IndexError) :
    post (.error err) u := hpost.error err u (W.rely_trans hst htu)

section

variable {α : Type} {f : α → IndexM B H (ApplyResult H)}
omit hW hs

theorem read_sat {p : IndexM B H α} {facts : α → MemoryChain B H → Prop}
    (hp : p.Sat W (Ends W t facts) t)
    (hf : ∀ value u, W.rely t u → W.rely s u → facts value u → (f value).Sat W post u) :
    (p >>= f).Sat W post t :=
  sat_then hp (fun value u hu => hf value u hu (W.rely_trans hst hu))
    fun _ _ hu => error_later hst hpost hu _

theorem check_sat {x : Except IndexError α} (hf : ∀ value, x = .ok value →
    (f value).Sat W post t) :
    ((liftM x : IndexM B H α) >>= f).Sat W post t :=
  sat_check hf (error_later hst hpost (W.rely_refl t))

theorem slice_sat {l : List α} {f : Slice α → IndexM B H (ApplyResult H)}
    (hf : ∀ slice, slice.val = l → (f slice).Sat W post t) :
    ((liftM (makeSlice l : Except IndexError _) : IndexM B H _) >>= f).Sat W post t :=
  check_sat hst hpost fun slice hslice => hf slice (makeSlice_ok hslice)

end

omit hW hs hst hpost [DecidableEq H] [ToString H] in
theorem Branch.no_wrap {base : BlockRef H} {items : List (BlockRef H × B)}
    (h : Branch candidate base items) :
    base.number.val + items.length < 18446744073709551616 := by
  have hlast := h.linked.last_val
  rw [length_map] at hlast
  rw [← hlast]
  exact Fin.isLt _

omit hs hst hpost in
/-- The finalized height is the same when the call is made. -/
theorem finalized_later {p : BlockRef H → Prop} (ht : WellFormed t)
    (h : ∀ f ∈ t.finality.bind Finality.finalized, p f)
    (htu : W.rely t u) : ∀ f ∈ u.finality.bind Finality.finalized, p f := by
  rw [hW.finality_eq ht htu]
  exact h

namespace Canonicalizer

/-! ## The four moves -/

variable {tip : BlockRef H}

/-- Taking the chain back is a reported, disciplined write. -/
theorem truncateHead_sat (htip : s.tip = some tip) (hlt : candidate.number < tip.number)
    (hcandidate : t.refAt candidate.number = some candidate) :
    (c.truncateHead tip candidate : IndexM B H _).Sat W post t := by
  have ht := hW.wellFormed hs hst
  refine check_sat hst hpost fun _ _ => ?_
  refine read_sat hst hpost (c.validateReorgBoundary_ends hW ht _ _) fun _ u hu hsu hbound => ?_
  have hu' := hW.wellFormed hs hsu
  refine read_sat hsu hpost (c.detachedBranch_ends hW hu' _ _)
    fun detached v hv hsv ⟨hlength, hdepth, hrefs⟩ => ?_
  refine slice_sat hsv hpost fun slice hval => ?_
  subst hval
  refine write_sat hW hs hsv hpost htip (fun x hx _ => ⟨?_, ?_, Fin.isLt _⟩) fun x hx _ => ?_
  · exact hW.refAt ht (W.rely_trans hu (W.rely_trans hv hx)) hcandidate
  · exact detached_ne_nil hlt hlength
  · refine ⟨[], rfl, Branch.self _, rfl, hlength ▸ hdepth, fun d hd => ?_, ?_⟩
    · exact hW.refAt (hW.wellFormed hs hsv) hx (hrefs d hd)
    · exact finalized_later hW hu' hbound.2 (W.rely_trans hv hx)

variable {ancestor : BlockRef H} {items : List (BlockRef H × B)}

/-- A reorg is a reported, disciplined write. -/
theorem reorganize_sat (htip : s.tip = some tip) (hlt : ancestor.number < tip.number)
    (hancestor : t.refAt ancestor.number = some ancestor)
    (hbranch : Branch candidate ancestor items) :
    (c.reorganize tip candidate ancestor items).Sat W post t := by
  have ht := hW.wellFormed hs hst
  refine read_sat hst hpost (c.validateReorgBoundary_ends hW ht _ _) fun _ u hu hsu hbound => ?_
  have hu' := hW.wellFormed hs hsu
  refine read_sat hsu hpost (c.detachedBranch_ends hW hu' _ _)
    fun detached v hv hsv ⟨hlength, hdepth, hrefs⟩ => ?_
  refine slice_sat hsv hpost fun slice hval => ?_
  refine slice_sat hsv hpost fun attached hattached => ?_
  subst hval
  refine write_sat hW hs hsv hpost htip (fun x hx _ => ⟨?_, ?_, ?_⟩) fun x hx _ => ?_
  · exact hW.refAt ht (W.rely_trans hu (W.rely_trans hv hx)) hancestor
  · exact detached_ne_nil hlt hlength
  · show ancestor.number.val + attached.val.length < _
    rw [hattached, length_map]
    exact hbranch.no_wrap
  · refine ⟨items, hattached, hbranch, rfl, hlength ▸ hdepth, fun d hd => ?_, ?_⟩
    · exact hW.refAt (hW.wellFormed hs hsv) hx (hrefs d hd)
    · exact finalized_later hW hu' hbound.2 (W.rely_trans hv hx)

variable {covered : BlockRange}

/-- Replacing the highest range is a reported, disciplined write. -/
theorem replaceSparseHead_sat {p : BlockRef H × B}
    {rest : List (BlockRef H × B)} (htip : s.tip = some tip)
    (hstart : p.1.number = covered.start) (hvalid : Valid p) (hbranch : Branch candidate p.1 rest) :
    (c.replaceSparseHead tip candidate covered (p :: rest)).Sat W post t := by
  have ht := hW.wellFormed hs hst
  refine check_sat hst hpost fun _ _ => ?_
  refine check_sat hst hpost fun _ hdepth => ?_
  have hdepth := not_le.mp (failIf_eq_ok.mp hdepth)
  refine read_sat hst hpost (c.validateSparseRangeBoundary_ends hW ht _ _)
    fun _ u hu hsu hbound => ?_
  have hu' := hW.wellFormed hs hsu
  refine read_sat hsu hpost (readDown_ends hW hu' _ _ _ _) fun detached v hv hsv hread => ?_
  refine slice_sat hsv hpost fun slice hval => ?_
  refine slice_sat hsv hpost fun attached hattached => ?_
  subst hval
  refine write_sat hW hs hsv hpost htip (fun _ _ _ a ha => ?_) fun x hx _ => ?_
  · cases ha
  · refine ⟨p :: rest, hattached, ⟨⟨p, rest, rfl, hstart, hvalid, hbranch⟩, ?_⟩,
      rfl, ?_⟩
    · exact finalized_later hW hu' hbound (W.rely_trans hv hx)
    · show slice.val.length ≤ _
      rw [hread.1]
      exact hdepth

variable {ranges : List BlockRange}

/-- The checks and reads in front of a replacement through an ancestor. -/
theorem coveredAbove_sat {depth : Uint64} {f : List (BlockRef H) → IndexM B H (ApplyResult H)}
    (hranges : ∀ r ∈ ranges, r.start ≤ r.stop ∧ r.stop ≤ tip.number)
    (hf : ∀ detached v, W.rely t v → (∀ d ∈ detached, ancestor.number < d.number) →
      uint64 detached.length ≤ c.maxReorgDepth →
      (∀ f ∈ v.finality.bind Finality.finalized, f.number ≤ ancestor.number) →
      (f detached).Sat W post v) :
    (c.validateReorgBoundary ancestor depth >>= fun _ =>
      detachedCoveredAbove tip ancestor ranges depth >>= f).Sat W post t := by
  have ht := hW.wellFormed hs hst
  refine read_sat hst hpost (c.validateReorgBoundary_ends hW ht _ _) fun _ u hu hsu hbound => ?_
  have hu' := hW.wellFormed hs hsu
  refine read_sat hsu hpost (detachedCoveredAbove_ends hW hu' _ _ _ _ hranges)
    fun detached v hv _ ⟨habove, hlength⟩ => ?_
  refine hf detached v (W.rely_trans hu hv) habove ?_ (finalized_later hW hu' hbound.2 hv)
  rw [hlength]
  exact hbound.1

omit hs hst hpost in
/-- An ancestor that has been read as canonical still is when the call is made. -/
theorem through_disciplined
    {slice : Slice (BlockRef H)} {attached : Slice B} {reason : String} (ht : WellFormed t)
    (hancestor : t.refAt ancestor.number = some ancestor)
    (habove : ∀ d ∈ slice.val, ancestor.number < d.number) (u : MemoryChain B H)
    (hu : W.rely t u) :
    (Call.replaceHighestCanonicalSegment
      { range := covered, ancestor := some ancestor, detached := slice, attached := attached,
        reason := reason }).Disciplined u := by
  intro a ha
  cases ha
  exact ⟨hW.refAt ht hu hancestor, habove⟩

/-- Taking a chain with gaps back is a reported, disciplined write. -/
theorem truncateSparseHead_sat (htip : s.tip = some tip)
    (hcandidate : t.refAt candidate.number = some candidate)
    (hranges : ∀ r ∈ ranges, r.start ≤ r.stop ∧ r.stop ≤ tip.number) :
    (c.truncateSparseHead tip candidate ranges covered : IndexM B H _).Sat W post t := by
  have ht := hW.wellFormed hs hst
  refine check_sat hst hpost fun depth _ => ?_
  refine coveredAbove_sat hW hs hst hpost hranges fun detached v hv habove hdepth hbound => ?_
  have hsv := W.rely_trans hst hv
  have hv' := hW.wellFormed ht hv
  refine slice_sat hsv hpost fun slice hval => ?_
  subst hval
  refine write_sat hW hs hsv hpost htip (fun u hu _ => ?_) fun u hu _ => ?_
  · exact through_disciplined hW hv' (hW.refAt ht hv hcandidate) habove u hu
  · exact ⟨[], rfl, ⟨Branch.self _, finalized_later hW hv' hbound hu⟩, rfl,
      length_le_of_uint64 hdepth⟩

/-- Replacing above an ancestor is a reported, disciplined write. -/
theorem replaceSparseHeadThroughAncestor_sat (htip : s.tip = some tip)
    (hancestor : t.refAt ancestor.number = some ancestor)
    (hranges : ∀ r ∈ ranges, r.start ≤ r.stop ∧ r.stop ≤ tip.number)
    (hbranch : Branch candidate ancestor items) :
    (c.replaceSparseHeadThroughAncestor tip candidate ancestor covered ranges items).Sat W
      post t := by
  have ht := hW.wellFormed hs hst
  refine check_sat hst hpost fun depth _ => ?_
  refine coveredAbove_sat hW hs hst hpost hranges fun detached v hv habove hdepth hbound => ?_
  have hsv := W.rely_trans hst hv
  have hv' := hW.wellFormed ht hv
  refine slice_sat hsv hpost fun slice hval => ?_
  refine slice_sat hsv hpost fun attached hattached => ?_
  subst hval
  refine write_sat hW hs hsv hpost htip (fun u hu _ => ?_) fun u hu _ => ?_
  · exact through_disciplined hW hv' (hW.refAt ht hv hancestor) habove u hu
  · exact ⟨items, hattached, ⟨hbranch, finalized_later hW hv' hbound hu⟩, rfl,
      length_le_of_uint64 hdepth⟩

/-! ## The decision tree -/

variable {coverage : Option (CoreCoverage H)}

section

omit hW hs hst hpost [DecidableEq H] [ChainBundle B H] [ToString H]

variable {top : BlockRange}

/-- The disconnected live range is the last range and ends at the tip. -/
theorem sparseTopOf_some (h : sparseTopOf coverage tip = some top) :
    (rangesOf coverage).getLast? = some top ∧ tip.number = top.stop := by
  cases coverage with
  | none => cases h
  | some coverage =>
    obtain ⟨hlast, hkeep⟩ := filter_eq_some_iff.mp h
    exact ⟨hlast, (of_decide_eq_true hkeep).2⟩

/-- With a disconnected live range no range reaches above the tip. -/
theorem ranges_le_tip
    (hnorm : Normalized (rangesOf coverage)) (h : sparseTopOf coverage tip = some top) :
    ∀ r ∈ rangesOf coverage, r.start ≤ r.stop ∧ r.stop ≤ tip.number := by
  obtain ⟨hlast, htip⟩ := sparseTopOf_some h
  intro r hr
  have hproper : r.start ≤ r.stop := hnorm.proper r hr
  refine ⟨hproper, ?_⟩
  obtain ⟨front, hfront⟩ := getLast?_eq_some_iff.mp hlast
  rw [htip]
  rw [hfront] at hnorm hr
  exact hnorm.le_last ⟨r, hr, hproper, le_rfl⟩

end

/-- However the walk ended, what follows is a reported, disciplined write. -/
theorem finish_sat {w : WalkContext H}
    {ending : WalkEnd B H} (htip : s.tip = some w.tip) (hnorm : Normalized (rangesOf coverage))
    (htop : w.sparseTop = sparseTopOf coverage w.tip) (hfits : ending.Fits w candidate t) :
    (c.finish w candidate (rangesOf coverage) ending).Sat W post t := by
  have ht := hW.wellFormed hs hst
  cases ending with
  | sparseStart items =>
    obtain ⟨p, rest, top, rfl, hsome, hstart, hvalid, hbranch⟩ := hfits
    rw [finish, hsome]
    exact replaceSparseHead_sat hW hs hst hpost htip hstart hvalid hbranch
  | ancestor ancestor items =>
    obtain ⟨hancestor, hle, hbranch⟩ := hfits
    rw [finish]
    cases hbelow : w.sparseTop.filter fun top => ancestor.number < top.start with
    | some top =>
      rw [htop] at hbelow
      have hsome := (filter_eq_some_iff.mp hbelow).1
      exact replaceSparseHeadThroughAncestor_sat hW hs hst hpost htip hancestor
        (ranges_le_tip hnorm hsome) hbranch
    | none =>
      have hread := hW.refAt hs hst (hs.tip_some.mp htip).1
      obtain ⟨b, -, hb⟩ := ht.refAt_block hread
      split_ifs with hsame
      · have heq : ancestor = w.tip := refAt_eq_of_hash ht hancestor hb.1 hsame
        have hcommit := hpost.commit items t
          (.wrap s!"commit canonical extension through {candidate.number.val}") hst
          (by rw [Extends, htip, ← heq]; exact hbranch)
        rw [commitResult, htip] at hcommit
        rw [extend, heq]
        exact hcommit
      · have hlt : ancestor.number < w.tip.number := by
          refine lt_of_le_of_ne hle fun hnumber => hsame ?_
          rw [hnumber, hread] at hancestor
          cases hancestor
          rfl
        exact reorganize_sat hW hs hst hpost htip hlt hancestor hbranch

variable {bundle : B}

/-- The walk from a candidate, with what follows it. -/
theorem connect_sat (known : Bool) (hvalid : Valid (candidate, bundle)) (htip : s.tip = some tip)
    (hnorm : Normalized (rangesOf coverage)) :
    (c.connect bundle candidate tip coverage known authoritativeHead).Sat W post t := by
  have ht := hW.wellFormed hs hst
  refine check_sat hst hpost fun _ _ => ?_
  refine check_sat hst hpost fun _ _ => ?_
  have hbranch : ∀ cursor, refFromBundle bundle = .ok cursor →
      Branch candidate cursor ([] : List (BlockRef H × B)) := by
    intro cursor hcursor
    cases hvalid.1.symm.trans hcursor
    exact Branch.self _
  refine read_sat hst hpost (c.walk_ends hW ht _ _ hvalid.2 hbranch none)
    fun ending u _ hsu hfits => ?_
  exact finish_sat hW hs hsu hpost htip hnorm rfl hfits

theorem applyKnown_sat (hvalid : Valid (candidate, bundle)) (htip : s.tip = some tip)
    (hnorm : Normalized (rangesOf coverage)) (hknown : t.refAt candidate.number = some candidate) :
    (c.applyKnown bundle candidate tip candidate coverage authoritativeHead).Sat W post t := by
  rw [applyKnown]
  split_ifs with hbelow hkeep
  · cases hsparse : (sparseTopOf coverage tip).filter fun top => candidate.number < top.start with
    | some top =>
      have hsome := (filter_eq_some_iff.mp hsparse).1
      exact truncateSparseHead_sat hW hs hst hpost htip hknown (ranges_le_tip hnorm hsome)
    | none => exact truncateHead_sat hW hs hst hpost htip hbelow.2 hknown
  · refine hpost.known tip t htip hst hknown fun hhead => ?_
    exact not_lt.mp fun hlt => hbelow ⟨hhead, hlt⟩
  · exact connect_sat hW hs hst hpost true hvalid htip hnorm

omit hs hst hpost in
theorem headCoverage_ends (ht : WellFormed t) (authoritativeHead : Bool) :
    (headCoverage authoritativeHead : IndexM B H _).Sat W
      (Ends W t fun coverage _ => Normalized (rangesOf coverage)) t := by
  rw [headCoverage]
  split_ifs
  · refine ends_mono (readCoverage_ends hW ht _) fun coverage u hu hread => ?_
    rw [hread]
    cases u.configuredStart with
    | none => exact Normalized.nil
    | some start => exact (hW.wellFormed ht hu).normalized
  · exact ends_pure Normalized.nil

/-- A candidate above the tip. -/
theorem applyAbove_sat (hvalid : Valid (candidate, bundle)) (htip : s.tip = some tip) :
    (c.applyAbove bundle candidate tip authoritativeHead).Sat W post t := by
  refine read_sat hst hpost (headCoverage_ends hW (hW.wellFormed hs hst) _)
    fun coverage u hu hsu hnorm => ?_
  refine read_sat hsu hpost (canonicalBlock_ends hW (hW.wellFormed hs hsu) _ _)
    fun canonical v hv hsv hread => ?_
  split
  · rename_i known hfound
    obtain ⟨hsome, hhash⟩ := filter_eq_some_iff.mp hfound
    rw [hread] at hsome
    have heq := refAt_eq_of_hash (hW.wellFormed hs hsv) hsome hvalid.1 (of_decide_eq_true hhash)
    subst heq
    exact applyKnown_sat hW hs hsv hpost hvalid htip hnorm hsome
  · exact connect_sat hW hs hsv hpost false hvalid htip hnorm

omit hs hst hpost in
/-- **The rule for `apply`**, with its result. -/
theorem apply_admits (ht : WellFormed t) (herr : ∀ err u, W.rely t u → post (.error err) u)
    (hadmits : ∀ candidate u, Valid (candidate, bundle) → W.rely t u →
      Admits W c u candidate authoritativeHead post) :
    (c.apply bundle authoritativeHead).Sat W post t := by
  refine sat_check (fun _ _ => ?_) fun _ => herr _ t (W.rely_refl t)
  refine sat_check (fun _ hclone => ?_) fun _ => herr _ t (W.rely_refl t)
  refine sat_check (fun candidate href => ?_) fun _ => herr _ t (W.rely_refl t)
  have hvalid : Valid (candidate, bundle) := ⟨refOf_ok href, validate_ok hclone⟩
  refine sat_then (canonicalTip_ends hW ht _) (fun tip u hu hread => ?_) herr
  have hu' := hW.wellFormed ht hu
  have hpost := hadmits candidate u hvalid hu
  cases tip with
  | none =>
    refine sat_check (fun _ _ => ?_) fun _ => herr _ u hu
    have hcommit := hpost.commit [(candidate, bundle)] u
      (.wrap "commit initial canonical block") (W.rely_refl u)
      (by rw [Extends, ← hread]; exact ⟨bundle, rfl, hvalid⟩)
    rw [commitResult, ← hread] at hcommit
    exact hcommit
  | some tip => exact applyAbove_sat hW hu' (W.rely_refl u) hpost hvalid hread.symm

omit hs hst hpost in
/-- The rule for `apply` when the result does not matter. -/
theorem apply_sat (c : Canonicalizer) (ht : WellFormed t)
    (herr : ∀ err u, W.rely t u → post (.error err) u)
    (hsettles : ∀ candidate u, Valid (candidate, bundle) → W.rely t u →
      Settles W u candidate authoritativeHead post) :
    (c.apply bundle authoritativeHead).Sat W post t :=
  apply_admits hW ht herr fun candidate u hvalid hu => (hsettles candidate u hvalid hu).admits c

end Canonicalizer

end Apply

end Indexer
