import Etherview.IndexerCanonicalizer
import Etherview.StoreRebase

/-! # What the canonicalizer reads

    The other lanes only append: they commit segments and journal entries, so what
    has been read as canonical stays canonical (`Grows`).  A `RepoWorld` is any world
    with the memory repository in which the others move along `Grows` and a lane may
    make every call that is `Disciplined`; the undisturbed world is one of them.

    The rules here say what each reading part of the canonicalizer knows when it
    ends.  The main one is `walk_ends`: the ancestry walk ends with a linked branch
    from a canonical ancestor, or from the start of the disconnected live range, up
    to the candidate. -/

namespace Indexer

open Store Interaction Transact IntervalSet List Prog Fin Except

variable {B H : Type} [DecidableEq H] [ChainBundle B H] [ToString H]

/-! ## Worlds -/

/-- A well-formed state to which others have only added. -/
structure Grown (s t : MemoryChain B H) : Prop where
  wellFormed : WellFormed t
  refAt : ∀ {n : Uint64} {r : BlockRef H}, s.refAt n = some r → t.refAt n = some r
  start : t.configuredStart = s.configuredStart
  finality : t.finality = s.finality

/-- What the other lanes do to a well-formed state. -/
def Grows (s t : MemoryChain B H) : Prop := WellFormed s → Grown s t

omit [ToString H] in
theorem Grows.refl (s : MemoryChain B H) : Grows s s := fun hs => ⟨hs, id, rfl, rfl⟩

omit [ToString H] in
theorem Grows.trans {s t u : MemoryChain B H} (hst : Grows s t) (htu : Grows t u) : Grows s u := by
  intro hs
  have h := hst hs
  have h' := htu h.wellFormed
  exact ⟨h'.wellFormed, fun hr => h'.refAt (h.refAt hr), h'.start.trans h.start,
    h'.finality.trans h.finality⟩

/-- A world of the memory repository. -/
structure RepoWorld (W : World (interface B H) (MemoryChain B H)) : Prop where
  serves : ∀ {request : Request B H} {s : MemoryChain B H} {answer : Answer request}
    {t : MemoryChain B H}, W.serves request s answer t → memoryServes request s answer t
  grows : ∀ {s t : MemoryChain B H}, W.rely s t → Grows s t
  reads : ∀ (request : Request B H) (s : MemoryChain B H),
    (∀ call, request ≠ .call call) → W.guar request s
  calls : ∀ (call : Call B H) (s : MemoryChain B H), WellFormed s → call.Disciplined s →
    W.guar (.call call) s

/-- The repository without other lanes. -/
def quietWorld : World (interface B H) (MemoryChain B H) := World.quiet memoryServes

/-- The world without another lane is a world of the repository. -/
theorem quietWorld_repo : RepoWorld (quietWorld : World (interface B H) (MemoryChain B H)) where
  serves := id
  grows := fun h => by
    cases h
    exact Grows.refl _
  reads := fun _ _ _ => trivial
  calls := fun _ _ _ _ => trivial

namespace RepoWorld

variable {W : World (interface B H) (MemoryChain B H)} {s t : MemoryChain B H}

theorem wellFormed (hW : RepoWorld W) (hs : WellFormed s) (h : W.rely s t) : WellFormed t :=
  (hW.grows h hs).wellFormed

theorem refAt (hW : RepoWorld W) (hs : WellFormed s) (h : W.rely s t) {n : Uint64}
    {r : BlockRef H} (hr : s.refAt n = some r) : t.refAt n = some r := (hW.grows h hs).refAt hr

theorem start_eq (hW : RepoWorld W) (hs : WellFormed s) (h : W.rely s t) :
    t.configuredStart = s.configuredStart := (hW.grows h hs).start

theorem finality_eq (hW : RepoWorld W) (hs : WellFormed s) (h : W.rely s t) :
    t.finality = s.finality := (hW.grows h hs).finality

end RepoWorld

section Rules

variable {W : World (interface B H) (MemoryChain B H)} (hW : RepoWorld W)
  {s : MemoryChain B H} (hs : WellFormed s)
include hW hs

/-! ## Single requests -/

/-- A read ends in a later chain, with what it says about that chain. -/
theorem read_ends {α δ : Type} {request : Request B H} {read : Answer request → Except δ α}
    {wrap : δ → IndexError} {facts : α → MemoryChain B H → Prop}
    (hread : ∀ call, request ≠ .call call)
    (h : ∀ u answer t, WellFormed u → memoryServes request u answer t →
      t = u ∧ ∀ value, read answer = .ok value → facts value u) :
    (query request read wrap : IndexM B H α).Sat W (Ends W s facts) s := by
  refine sat_query.mpr fun u hu => ⟨hW.reads _ u hread, fun answer t hserve => ?_⟩
  obtain ⟨rfl, hfacts⟩ := h u answer t (hW.wellFormed hs hu) (hW.serves hserve)
  cases hanswer : read answer with
  | error err => exact hu
  | ok value => exact ⟨hu, hfacts value hanswer⟩

/-- The reference at a height, as it is when the read ends. -/
theorem canonicalBlock_ends (number : Uint64) (context : String) :
    (canonicalBlock number context : IndexM B H _).Sat W
      (Ends W s fun answer t => answer = t.refAt number) s := by
  refine read_ends hW hs (fun _ h => by cases h) fun u answer t hu hserve => ⟨hserve.1, ?_⟩
  rintro value rfl
  exact ok.inj (hserve.2.trans (hu.canonicalRef_eq number))

theorem canonicalTip_ends (context : String) :
    (canonicalTip context : IndexM B H _).Sat W (Ends W s fun answer t => answer = t.tip) s := by
  refine read_ends hW hs (fun _ h => by cases h) fun u answer t hu hserve => ⟨hserve.1, ?_⟩
  rintro value rfl
  exact ok.inj (hserve.2.trans hu.memoryTip_eq)

omit [ToString H] hW hs in
/-- The coverage read returns the view of a configured index. -/
theorem coverage_ok {u : MemoryChain B H} {answer : Option (CoreCoverage H)} (hu : WellFormed u)
    (h : Store.coverage u = .ok answer) : answer = u.configuredStart.map u.view := by
  unfold Store.coverage at h
  cases hstart : u.configuredStart with
  | none =>
    rw [hstart] at h
    exact (ok.inj h).symm
  | some start =>
    rw [hstart] at h
    obtain ⟨current, hcurrent, h⟩ := bind_eq_ok.mp h
    obtain ⟨start', hstart', -, -, rfl⟩ := hu.coverageLocked_ok.mp hcurrent
    cases hstart.symm.trans hstart'
    exact (pure_eq_ok.mp h).symm

theorem readCoverage_ends (context : String) : (readCoverage context : IndexM B H _).Sat W
      (Ends W s fun answer t => answer = t.configuredStart.map t.view) s := by
  refine read_ends hW hs (fun _ h => by cases h) fun u answer t hu hserve => ⟨hserve.1, ?_⟩
  rintro value rfl
  exact coverage_ok hu hserve.2.symm

theorem readFinality_ends (context : String) : (readFinality context : IndexM B H _).Sat W
      (Ends W s fun answer t => answer = t.finality) s := by
  refine read_ends hW hs (fun _ h => by cases h) fun u answer t _ hserve => ⟨hserve.1, ?_⟩
  rintro value rfl
  exact ok.inj hserve.2

/-- Reading a stored block says nothing about the chain. -/
theorem storedBundle_ends (hash : H) (context : String) :
    (storedBundle hash context : IndexM B H _).Sat W (Ends W s fun _ _ => True) s :=
  read_ends hW hs (fun _ h => by cases h) fun _ _ _ _ hserve => ⟨hserve.1, fun _ _ => trivial⟩

/-- Reading from the source says nothing about the chain. -/
theorem sourceBundle_ends (head : Bool) (hash : H) (context : String) :
    (sourceBundle head hash context : IndexM B H _).Sat W (Ends W s fun _ _ => True) s :=
  read_ends hW hs (fun _ h => by cases h) fun _ _ _ _ hserve => ⟨hserve, fun _ _ => trivial⟩

/-- A repository call: a failed one has changed nothing. -/
theorem call_sat {call : Call B H} {wrap : StoreError → IndexError}
    {post : Except IndexError Unit → MemoryChain B H → Prop}
    (hcall : ∀ u, W.rely s u → WellFormed u → call.Disciplined u)
    (hok : ∀ u t, W.rely s u → WellFormed u → call.exec.run u = (.ok (), t) →
      post (.ok ()) t)
    (herr : ∀ err t, W.rely s t → post (.error err) t) :
    (callRepository call wrap).Sat W post s := by
  refine sat_query.mpr fun u hrely => ?_
  have hu := hW.wellFormed hs hrely
  refine ⟨hW.calls call u hu (hcall u hrely hu), fun answer t hserve => ?_⟩
  have hrun : call.exec.run u = (answer, t) := hW.serves hserve
  cases answer with
  | error err =>
    have ht := Call.atomic hu.unconfigured hrun
    subst ht
    exact herr _ _ hrely
  | ok value => exact hok u t hrely hu hrun

/-! ## Branches that are detached -/

omit hW hs [DecidableEq H] [ChainBundle B H] [ToString H] in
theorem require_ok {α : Type} {x : Option α} {err : IndexError} {value : α}
    (h : require x err = .ok value) : x = some value := by
  cases x with
  | none => cases h
  | some found => exact congrArg some (ok.inj h)

namespace Canonicalizer

variable (c : Canonicalizer)

omit hW hs [DecidableEq H] [ChainBundle B H] [ToString H] in
/-- A check that succeeds does not cross the finalized block. -/
theorem checkFinalized_ok {finality : Option (Finality H)} {crosses : Uint64 → Bool}
    {text : Uint64 → String} {u : Unit} (h : checkFinalized finality crosses text = .ok u) :
    ∀ f ∈ finality.bind Finality.finalized, crosses f.number = false := by
  intro f hf
  rw [checkFinalized, hf] at h
  simpa using failIf_eq_ok.mp h

/-- A passed boundary check: the depth is allowed and the ancestor is not below the
    finalized block. -/
theorem validateReorgBoundary_ends (ancestor : BlockRef H) (depth : Uint64) :
    (c.validateReorgBoundary ancestor depth : IndexM B H Unit).Sat W
      (Ends W s fun _ t => depth ≤ c.maxReorgDepth
        ∧ ∀ f ∈ t.finality.bind Finality.finalized, f.number ≤ ancestor.number) s := by
  refine ends_check fun _ hdepth => ends_bind (readFinality_ends hW hs _) ?_
  rintro _ t _ rfl
  refine ends_liftM fun _ hcheck => ⟨not_lt.mp (failIf_eq_ok.mp hdepth), ?_⟩
  intro f hf
  simpa using checkFinalized_ok hcheck f hf

/-- An accepted range lies above the finalized block. -/
theorem validateSparseRangeBoundary_ends (covered : BlockRange) (depth : Uint64) :
    (c.validateSparseRangeBoundary covered depth : IndexM B H Unit).Sat W (Ends W s fun _ t =>
        ∀ f ∈ t.finality.bind Finality.finalized, f.number < covered.start) s := by
  refine ends_check fun _ _ => ends_bind (readFinality_ends hW hs _) ?_
  rintro _ t _ rfl
  refine ends_liftM fun _ hcheck f hf => ?_
  simpa using checkFinalized_ok hcheck f hf

/-- The loop returns one canonical block per height. -/
theorem readDown_ends (missing : Uint64 → IndexError) (context : Uint64 → String) (count : Nat)
    (number : Uint64) :
    (readDown missing context count number : IndexM B H _).Sat W
      (Ends W s fun detached t => detached.length = count
        ∧ ∀ d ∈ detached, t.refAt d.number = some d) s := by
  induction count generalizing number s with
  | zero => exact ends_pure ⟨rfl, fun d hd => absurd hd not_mem_nil⟩
  | succ count ih =>
    refine ends_bind (canonicalBlock_ends hW hs _ _) fun answer t ht hanswer => ?_
    have htw := hW.wellFormed hs ht
    refine ends_check fun reference hreference => ?_
    have hread : t.refAt number = some reference := hanswer ▸ require_ok hreference
    refine ends_bind (ih htw (number - 1)) fun rest u hu hrest => ?_
    refine ends_pure ⟨by rw [length_cons, hrest.1], fun d hd => ?_⟩
    rcases mem_cons.mp hd with rfl | hd
    · have hsame := hW.refAt htw hu hread
      rwa [((hW.wellFormed htw hu).refAt_some hsame).1]
    · exact hrest.2 d hd

/-- A detached branch: one canonical block per height above the ancestor, and not more
    than are allowed. -/
theorem detachedBranch_ends (tip ancestor : BlockRef H) :
    (c.detachedBranch tip ancestor : IndexM B H _).Sat W (Ends W s fun detached t =>
        detached.length = (tip.number - ancestor.number).val
        ∧ tip.number - ancestor.number ≤ c.maxReorgDepth
        ∧ ∀ d ∈ detached, t.refAt d.number = some d) s := by
  refine ends_check fun _ _ => ends_check fun _ hdepth => ?_
  have hdepth := not_lt.mp (failIf_eq_ok.mp hdepth)
  refine ends_bind (readDown_ends hW hs _ _ _ _) fun detached t _ hread => ?_
  exact ends_check fun _ _ => ends_pure ⟨hread.1, hdepth, hread.2⟩

/-- A covered block that is read has its height. -/
theorem readCoveredBlock_ends (number : Uint64) (previous : Option (BlockRef H)) :
    (readCoveredBlock number previous : IndexM B H _).Sat W
      (Ends W s fun reference _ => reference.number = number) s := by
  refine ends_bind (canonicalBlock_ends hW hs _ _) fun answer t ht hanswer => ?_
  refine ends_check fun reference hreference => ends_check fun _ _ => ?_
  refine ends_pure ((hW.wellFormed hs ht).refAt_some ?_).1
  rw [← hanswer]
  exact require_ok hreference

/-- The blocks of a range lie in the range. -/
theorem readCoveredRange_ends (count : Nat) (number : Uint64) (previous : Option (BlockRef H))
    (hcount : count ≤ number.val) :
    (readCoveredRange count number previous : IndexM B H _).Sat W
      (Ends W s fun detached _ => ∀ d ∈ detached, number.val - count ≤ d.number.val) s := by
  induction count generalizing number previous s with
  | zero =>
    refine ends_bind (readCoveredBlock_ends hW hs _ _) fun reference t _ hnumber => ?_
    refine ends_pure fun d hd => ?_
    rw [mem_singleton.mp hd, hnumber]
    exact Nat.sub_le _ _
  | succ count ih =>
    refine ends_bind (readCoveredBlock_ends hW hs _ _) fun reference t ht hnumber => ?_
    have hne : number ≠ 0 := fun h => by
      rw [h] at hcount
      exact absurd hcount (Nat.not_succ_le_zero _)
    have hrest := ih (hW.wellFormed hs ht) (number - 1) (some reference) (by omega)
    refine ends_bind hrest fun rest u _ hrange => ends_pure fun d hd => ?_
    rcases mem_cons.mp hd with rfl | hd
    · rw [hnumber]
      exact Nat.sub_le _ _
    · have := hrange d hd
      omega

omit hW hs [DecidableEq H] [ChainBundle B H] [ToString H] in
/-- The part of a range above the ancestor lies above the ancestor. -/
theorem partAbove_some {tip ancestor : Uint64} {covered part : BlockRange}
    (hproper : covered.start ≤ covered.stop) (hstop : covered.stop ≤ tip)
    (h : partAbove tip ancestor covered = some part) :
    ancestor < part.start ∧ part.start ≤ part.stop := by
  unfold partAbove at h
  rw [min_eq_left hstop] at h
  by_cases hbelow : covered.stop ≤ ancestor
  · rw [if_pos hbelow] at h
    cases h
  · rw [if_neg hbelow] at h
    cases h
    have hlt : ancestor < covered.stop := not_le.mp hbelow
    have hmax : ancestor ≠ maxUint64 := ne_maxUint64_of_lt hlt
    by_cases hstart : covered.start ≤ ancestor
    · simp only [if_pos hstart]
      rw [lt_def, le_def, val_add_one hmax]
      exact ⟨Nat.lt_succ_self _, hlt⟩
    · simp only [if_neg hstart]
      exact ⟨not_le.mp hstart, hproper⟩

/-- Only blocks above the ancestor are collected. -/
theorem readCoveredRanges_ends (tip ancestor : Uint64) (ranges : List BlockRange)
    (previous : Option (BlockRef H))
    (hranges : ∀ r ∈ ranges, r.start ≤ r.stop ∧ r.stop ≤ tip) :
    (readCoveredRanges tip ancestor ranges previous : IndexM B H _).Sat W
      (Ends W s fun detached _ => ∀ d ∈ detached, ancestor < d.number) s := by
  induction ranges generalizing previous s with
  | nil => exact ends_pure fun d hd => absurd hd not_mem_nil
  | cons covered rest ih =>
    obtain ⟨hproper, hstop⟩ := hranges covered mem_cons_self
    have hrest : ∀ r ∈ rest, r.start ≤ r.stop ∧ r.stop ≤ tip :=
      fun r hr => hranges r (mem_cons_of_mem _ hr)
    rw [readCoveredRanges]
    cases hpart : partAbove tip ancestor covered with
    | none => exact ih hs previous hrest
    | some part =>
      obtain ⟨habove, hle⟩ := partAbove_some hproper hstop hpart
      have hsub : (part.stop - part.start).val = part.stop.val - part.start.val := sub_val_of_le hle
      refine ends_bind (readCoveredRange_ends hW hs _ _ _ (by omega)) fun upper t ht hupper => ?_
      refine ends_bind (ih (hW.wellFormed hs ht) _ hrest) fun lower u _ hlower => ?_
      refine ends_pure fun d hd => ?_
      rcases mem_append.mp hd with hd | hd
      · have := hupper d hd
        rw [lt_def] at habove ⊢
        omega
      · exact hlower d hd

/-- The detached blocks lie above the ancestor and are as many as expected. -/
theorem detachedCoveredAbove_ends (tip ancestor : BlockRef H) (ranges : List BlockRange)
    (expectedDepth : Uint64)
    (hranges : ∀ r ∈ ranges, r.start ≤ r.stop ∧ r.stop ≤ tip.number) :
    (detachedCoveredAbove tip ancestor ranges expectedDepth : IndexM B H _).Sat W
      (Ends W s fun detached _ => (∀ d ∈ detached, ancestor.number < d.number)
        ∧ uint64 detached.length = expectedDepth) s := by
  refine ends_bind (readCoveredRanges_ends hW hs _ _ _ _ ?_) fun detached t _ habove => ?_
  · intro r hr
    exact hranges r (mem_reverse.mp hr)
  · refine ends_check fun _ _ => ends_check fun _ hlength => ?_
    exact ends_pure ⟨habove, not_not.mp (failIf_eq_ok.mp hlength)⟩

end Canonicalizer

/-! ## Branches that are attached -/

/-- A bundle that passed `chainbundle.Validate`, with its reference. -/
def Valid (p : BlockRef H × B) : Prop :=
  refFromBundle p.2 = .ok p.1 ∧ ∃ copy, ChainBundle.clone p.2 = .ok copy

/-- A linked branch of valid bundles on top of `base` that ends in the candidate. -/
structure Branch (candidate base : BlockRef H) (items : List (BlockRef H × B)) : Prop where
  valid : ∀ p ∈ items, Valid p
  linked : Linked (base :: items.map Prod.fst)
  last : (items.map Prod.fst).getLastD base = candidate

section

omit hW hs [DecidableEq H] [ToString H]

theorem Branch.self (r : BlockRef H) : Branch r r ([] : List (BlockRef H × B)) :=
  ⟨fun _ hp => absurd hp not_mem_nil, isChain_singleton r, rfl⟩

/-- A branch grows at its base. -/
theorem Branch.cons {candidate base parent : BlockRef H} {items : List (BlockRef H × B)}
    {bundle : B} (h : Branch candidate base items) (hbase : Valid (base, bundle))
    (hfollows : Follows parent base) : Branch candidate parent ((base, bundle) :: items) where
  valid := by
    intro p hp
    rcases mem_cons.mp hp with rfl | hp
    · exact hbase
    · exact h.valid p hp
  linked := isChain_cons_cons.mpr ⟨hfollows, h.linked⟩
  last := by
    rw [map_cons, getLastD_cons]
    exact h.last

end

omit hW hs [ToString H] in
/-- The hash of a canonical block determines its reference. -/
theorem refAt_eq_of_hash (hs : WellFormed s) {n : Uint64} {r q : BlockRef H} {bundle : B}
    (hr : s.refAt n = some r) (hq : refFromBundle bundle = .ok q) (hhash : r.hash = q.hash) :
    r = q := by
  obtain ⟨b, -, hb⟩ := hs.refAt_block hr
  exact refFromBundle_unique hb.1 hq hhash

namespace Canonicalizer

variable (c : Canonicalizer)

section

omit hW hs [DecidableEq H] [ToString H]

theorem validate_ok {bundle : B} {wrap : String → IndexError} {u : Unit}
    (h : validate bundle wrap = .ok u) : ∃ copy, ChainBundle.clone bundle = .ok copy := by
  obtain ⟨copy, hcopy, -⟩ := bind_eq_ok.mp h
  exact ⟨copy, mapError_eq_ok.mp hcopy⟩

/-- The reference of a bundle, read by the canonicalizer. -/
theorem refOf_ok {bundle : B} {r : BlockRef H} (h : refOf bundle = .ok r) :
    refFromBundle bundle = .ok r := mapError_eq_ok.mp h

end

omit hW hs [ToString H] in
/-- An accepted parent is followed by the child without wrapping. -/
theorem validateParent_ok {child parent : B} {childRef parentRef : BlockRef H} {u : Unit}
    (h : validateParent child parent = .ok u) (hchild : refFromBundle child = .ok childRef)
    (hparent : refFromBundle parent = .ok parentRef) : Follows parentRef childRef := by
  obtain ⟨hcn, -, hcp⟩ := refFromBundle_ok hchild
  obtain ⟨hpn, hph, -⟩ := refFromBundle_ok hparent
  obtain ⟨childNumber, hcn', h⟩ := bind_eq_ok.mp h
  obtain ⟨parentNumber, hpn', h⟩ := bind_eq_ok.mp h
  obtain ⟨_, hnumbers, h⟩ := bind_eq_ok.mp h
  obtain ⟨parentHash, hph', h⟩ := bind_eq_ok.mp h
  cases hcn.symm.trans hcn'
  cases hpn.symm.trans hpn'
  cases hph.symm.trans hph'
  rw [failIf_eq_ok, not_or, not_not] at hnumbers
  rw [failIf_eq_ok, not_not] at h
  exact ⟨hnumbers.1, hnumbers.2, hcp.symm.trans h⟩

/-- Fetching a parent says nothing about the chain. -/
theorem parentBundle_ends (hash : H) (authoritativeHead : Bool) :
    (c.parentBundle hash authoritativeHead : IndexM B H _).Sat W (Ends W s fun _ _ => True) s := by
  refine ends_bind (storedBundle_ends hW hs _ _) fun stored t ht _ => ?_
  have ht := hW.wellFormed hs ht
  cases stored with
  | some bundle => exact ends_pure trivial
  | none =>
    show Sat W _ (ite _ _ _) t
    split_ifs
    · exact sourceBundle_ends hW ht _ _ _
    · exact sourceBundle_ends hW ht _ _ _
    · exact ends_pure trivial

/-- A parent is valid and the bundle follows it. -/
theorem fetchParent_ends (w : WalkContext H) (cursor : BlockRef H) (bundle : B) :
    (c.fetchParent w cursor bundle).Sat W
      (Ends W s fun parent _ => (∃ copy, ChainBundle.clone parent = .ok copy)
        ∧ validateParent bundle parent = .ok ()) s := by
  refine ends_bind (c.parentBundle_ends hW hs _ _) fun _ t _ _ => ?_
  refine ends_check fun parent _ => ends_check fun _ hvalid => ?_
  refine ends_check fun _ hparent => ends_pure ⟨validate_ok hvalid, ?_⟩
  exact mapError_eq_ok.mp hparent

/-- Reading the markers once says nothing about the chain. -/
theorem loadFinality_ends (finality : Option (Option (Finality H))) :
    (loadFinality finality : IndexM B H _).Sat W (Ends W s fun _ _ => True) s := by
  cases finality with
  | some loaded => exact ends_pure trivial
  | none => exact ends_mono (readFinality_ends hW hs _) fun _ _ _ _ => trivial

section

variable (w : WalkContext H) {bundle : B} {cursor : BlockRef H}

/-- The cursor itself is the ancestor, and it is canonical. -/
theorem walkBelowTip_ends
    (hcursor : refFromBundle bundle = .ok cursor) (finality : Option (Option (Finality H))) :
    (c.walkBelowTip w cursor finality : IndexM B H _).Sat W
      (Ends W s fun answer t => ∀ a, answer = .inl a →
        a = cursor ∧ t.refAt cursor.number = some cursor) s := by
  refine ends_bind (canonicalBlock_ends hW hs _ _) fun canonical t ht hcanonical => ?_
  have ht := hW.wellFormed hs ht
  dsimp only
  split
  · rename_i ancestor hfound
    refine ends_pure fun a ha => ?_
    cases ha
    obtain ⟨hread, hmatch⟩ := Option.filter_eq_some_iff.mp hfound
    rw [hcanonical] at hread
    have heq := refAt_eq_of_hash ht hread hcursor (of_decide_eq_true hmatch).1
    exact ⟨heq, heq ▸ hread⟩
  · refine ends_check fun _ _ => ?_
    refine ends_bind (loadFinality_ends hW ht finality) fun loaded u _ _ => ?_
    exact ends_check fun _ _ => ends_pure fun a ha => by cases ha

/-- A walk that stops at the cursor stops at a canonical block. -/
theorem walkStatus_ends
    (hcursor : refFromBundle bundle = .ok cursor) (finality : Option (Option (Finality H))) :
    (c.walkStatus w cursor finality : IndexM B H _).Sat W
      (Ends W s fun answer t => ∀ a, answer = .inl a →
        a = cursor ∧ t.refAt cursor.number = some cursor
          ∧ cursor.number ≤ w.tip.number) s := by
  rw [walkStatus]
  by_cases hle : cursor.number ≤ w.tip.number
  · rw [if_pos hle]
    refine ends_mono (c.walkBelowTip_ends hW hs w hcursor finality) ?_
    intro answer t _ h a ha
    exact ⟨(h a ha).1, (h a ha).2, hle⟩
  · rw [if_neg hle]
    exact ends_pure fun a ha => by cases ha

/-- What the walk has found: a branch from a canonical ancestor that is not above the
    tip, or a branch from the start of the disconnected live range. -/
def WalkEnd.Fits (w : WalkContext H) (candidate : BlockRef H) (t : MemoryChain B H) :
    WalkEnd B H → Prop
  | .ancestor a items => t.refAt a.number = some a
      ∧ a.number ≤ w.tip.number ∧ Branch candidate a items
  | .sparseStart items => ∃ p rest top, items = p :: rest ∧ w.sparseTop = some top
      ∧ p.1.number = top.start ∧ Valid p ∧ Branch candidate p.1 rest

variable {candidate : BlockRef H} {above : List (BlockRef H × B)}

/-- A step that ends the walk ends it where it fits. -/
theorem walkStep_ends (hvalid : Valid (cursor, bundle))
    (hbranch : Branch candidate cursor above) (finality : Option (Option (Finality H))) :
    (c.walkStep w cursor bundle above finality).Sat W
      (Ends W s fun answer t => ∀ ending, answer = .inl ending →
        WalkEnd.Fits w candidate t ending) s := by
  refine ends_bind (c.walkStatus_ends hW hs w hvalid.1 finality) fun status t _ hfacts => ?_
  cases status with
  | inl ancestor =>
    obtain ⟨rfl, hcanonical, hle⟩ := hfacts ancestor rfl
    refine ends_pure fun ending hending => ?_
    cases hending
    exact ⟨hcanonical, hle, hbranch⟩
  | inr finality =>
    dsimp only
    split
    · rename_i hstart
      obtain ⟨top, htop, hnumber⟩ := Option.map_eq_some_iff.mp hstart.1
      refine ends_pure fun ending hending => ?_
      cases hending
      exact ⟨(cursor, bundle), above, top, rfl, htop, hnumber.symm, hvalid, hbranch⟩
    · exact ends_check fun _ _ => ends_pure fun ending hending => by cases hending

/-- **The ancestry walk** ends with a linked branch up to the candidate.  The
    invariant of the loop is the branch above the cursor. -/
theorem walk_ends (left : Nat) (hclone : ∃ copy, ChainBundle.clone bundle = .ok copy)
    (hbranch : ∀ cursor, refFromBundle bundle = .ok cursor → Branch candidate cursor above)
    (finality : Option (Option (Finality H))) :
    (c.walk w left bundle above finality).Sat W
      (Ends W s fun ending t => WalkEnd.Fits w candidate t ending) s := by
  induction left generalizing bundle above finality s with
  | zero =>
    refine ends_check fun cursor hcursor => ?_
    have hcursor := refOf_ok hcursor
    refine ends_bind (c.walkStep_ends hW hs w ⟨hcursor, hclone⟩ (hbranch cursor hcursor)
      finality) fun step t _ hstep => ?_
    cases step with
    | inl ending => exact ends_pure (hstep ending rfl)
    | inr finality => exact W.rely_refl t
  | succ left ih =>
    refine ends_check fun cursor hcursor => ?_
    have hcursor := refOf_ok hcursor
    refine ends_bind (c.walkStep_ends hW hs w ⟨hcursor, hclone⟩ (hbranch cursor hcursor)
      finality) fun step t ht hstep => ?_
    have ht := hW.wellFormed hs ht
    cases step with
    | inl ending => exact ends_pure (hstep ending rfl)
    | inr finality =>
      refine ends_bind (c.fetchParent_ends hW ht w cursor bundle) fun parent u hu hparent => ?_
      refine ih (hW.wellFormed ht hu) hparent.1 (fun parentRef hparentRef => ?_) finality
      exact (hbranch cursor hcursor).cons ⟨hcursor, hclone⟩
        (validateParent_ok hparent.2 hcursor hparentRef)

end

end Canonicalizer

end Rules

end Indexer
