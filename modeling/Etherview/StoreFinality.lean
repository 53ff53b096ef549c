import Etherview.StoreBoundary

/-! # Finality over runs

    Once a finalized marker is stored the chain up to it should never change.
    `KeepsFinalized s t` says what a later state owes to the marker of an earlier
    one, and `FinalityPermanent` asks it of every two states of a run.

    The guards of the repository compare the finalized height with the ancestor of
    a reorg or a replacement.  They bound what the call removes and writes except
    in two places: a generalized replacement may detach below its ancestor, and the
    attached heights of a reorg may wrap past the last height.  `SparesFinalized`
    excludes exactly that, and `finality_permanent_iff` says that a run is
    permanent if and only if its successful calls meet it. -/

namespace Store

open IntervalSet Transact MapUpdate List Tx Option Except

variable {B H : Type}

/-- The stored finalized marker. -/
def MemoryChain.finalized (s : MemoryChain B H) : Option (BlockRef H) :=
  s.finality.bind Finality.finalized

theorem MemoryChain.finalizedNumber_eq (s : MemoryChain B H) :
    s.finalizedNumber = s.finalized.map BlockRef.number := by
  rw [MemoryChain.finalizedNumber, MemoryChain.finalized, map_bind]
  rfl

/-- Every canonical block up to a height stays canonical. -/
def PreservedThrough (n : Uint64) (s t : MemoryChain B H) : Prop :=
  ∀ m ≤ n, ∀ hash, s.canonical.lookup m = some hash → t.canonical.lookup m = some hash

/-- What the state `t` owes to the finalized marker of the state `s`. -/
structure KeepsMarker (s t : MemoryChain B H) (marker : BlockRef H) : Prop where
  later : ∃ later, t.finalized = some later ∧ marker.number ≤ later.number
    ∧ t.canonical.lookup later.number = some later.hash
  block : t.canonical.lookup marker.number = some marker.hash
  below : PreservedThrough marker.number s t

/-- The finalized marker of `s`, when there is one, is kept in `t`. -/
def KeepsFinalized (s t : MemoryChain B H) : Prop :=
  ∀ marker, s.finalized = some marker → KeepsMarker s t marker

/-- The stored finalized marker is canonical. -/
def FinalizedCanonical (s : MemoryChain B H) : Prop :=
  ∀ marker, s.finalized = some marker → s.canonical.lookup marker.number = some marker.hash

theorem KeepsFinalized.refl {s : MemoryChain B H} (hs : FinalizedCanonical s) :
    KeepsFinalized s s := fun marker hmarker =>
  ⟨⟨marker, hmarker, le_rfl, hs marker hmarker⟩, hs marker hmarker, fun _ _ _ h => h⟩

theorem KeepsFinalized.trans {s t u : MemoryChain B H} (hst : KeepsFinalized s t)
    (htu : KeepsFinalized t u) : KeepsFinalized s u := by
  intro marker hmarker
  obtain ⟨⟨middle, hmiddle, hle, -⟩, hblock, hbelow⟩ := hst marker hmarker
  obtain ⟨⟨later, hlater, hle', hcanon⟩, -, hbelow'⟩ := htu middle hmiddle
  refine ⟨⟨later, hlater, le_trans hle hle', hcanon⟩, hbelow' _ hle _ hblock, ?_⟩
  intro m hm hash hlook
  exact hbelow' m (le_trans hm hle) hash (hbelow m hm hash hlook)

/-! ## One call -/

section Step

variable [DecidableEq H] [ChainBundle B H] {s t : MemoryChain B H}

/-- The condition under which a call leaves the finalized part of the chain alone:
    a reorg attaches no other block over a canonical height that is not above the
    finalized one, a generalized replacement detaches only above it. -/
def Call.SparesFinalized (s : MemoryChain B H) : Call B H → Prop
  | .applyReorg reorg =>
    ∀ n ∈ s.finalizedNumber, ∀ bundle ∈ reorg.attached.val, ∀ r,
      refFromBundle bundle = .ok r → r.number ≤ n →
        ∀ hash, s.canonical.lookup r.number = some hash → hash = r.hash
  | .replaceHighestCanonicalSegment replacement =>
    replacement.ancestor ≠ none → ∀ n ∈ s.finalizedNumber,
      ∀ d ∈ replacement.detached.val,
      n < d.number
  | _ => True

variable {n : Uint64} {items : List (BlockRef H × B)}

omit [ChainBundle B H] [DecidableEq H] in
/-- A move that detaches above a height and writes nothing new up to it. -/
theorem preserved_next {detached : List (BlockRef H)}
    (hcanonical : t.canonical = nextCanonical s detached items)
    (hdetached : ∀ d ∈ detached, n < d.number) (hitems : ∀ p ∈ items, p.1.number ≤ n →
      ∀ hash, s.canonical.lookup p.1.number = some hash → hash = p.1.hash) :
    PreservedThrough n s t := by
  intro m hm hash hlook
  rw [hcanonical]
  show (insertAll _ _ _ _).lookup m = some hash
  by_cases hmem : ∃ p ∈ items, p.1.number = m
  · obtain ⟨p, hp, rfl, hvalue⟩ := lookup_insertAll_of_mem hmem
    rw [hvalue, hitems p hp hm hash hlook]
  · have hno : ∀ p ∈ items, p.1.number ≠ m := fun p hp hpm => hmem ⟨p, hp, hpm⟩
    have hkeep : ∀ d ∈ detached, d.number ≠ m := by
      rintro d hd rfl
      exact absurd (hdetached d hd) (not_lt.mpr hm)
    rw [lookup_insertAll_of_notMem hno, lookup_eraseAll_of_notMem hkeep]
    exact hlook

variable {u : Unit}

/-- A reorg preserves the finalized part exactly when its attached blocks do not
    write over it. -/
theorem applyReorg_preserved_iff [ToString H] {reorg : Reorg B H} (hs : WellFormed s)
    (h : (applyReorg reorg).run s = (.ok u, t)) :
    (∀ n ∈ s.finalizedNumber, PreservedThrough n s t)
      ↔ (Call.applyReorg reorg).SparesFinalized s := by
  obtain ⟨owned, items, ranges, checkpoint, hown, hadm, rfl⟩ := applyReorg_run h
  have hacc := ownReorg_ok hown
  obtain ⟨-, hcanonical, -, -, -⟩ := afterReorg_maps s owned items ranges checkpoint
  rw [hacc.detached] at hcanonical
  constructor
  · intro hkeep n hn bundle hbundle r hr hle hash hlook
    obtain ⟨p, hp, rfl⟩ :=
      (attached_ref_iff hacc.copies hacc.owned).mp ⟨bundle, hbundle, hr⟩
    have hmem : ∃ q ∈ items, q.1.number = p.1.number := ⟨p, hp, rfl⟩
    obtain ⟨q, hq, hqn, hvalue⟩ := lookup_insertAll_of_mem hmem
    have hafter := hkeep n hn _ hle hash hlook
    rw [hcanonical] at hafter
    -- heights may wrap, but a slice is too short to hold one of them twice
    have hlen : (items.map Prod.fst).length < 9223372036854775808 := by
      rw [length_map, ← hacc.copies.length_eq]
      exact reorg.attached.property
    have hqp : q.1 = p.1 := wrap_eq_of_number hacc.chain hlen (mem_map_of_mem hq)
      (mem_map_of_mem hp) hqn
    rw [← hqp]
    exact Option.some.inj (hafter.symm.trans hvalue)
  · intro hspares n hn
    have hle := hadm.finalized n hn
    rw [hacc.ancestor] at hle
    refine preserved_next hcanonical ?_ ?_
    · intro d hd
      obtain ⟨top, rest, hrest⟩ := exists_cons_of_ne_nil (ne_nil_of_mem hd)
      have htop : reorg.detached.val.head? = some top := by rw [hrest]; rfl
      have hheights := (reorg_detached_heights hs hacc hadm htop).2.2 d.number
      exact lt_of_le_of_lt hle (hheights.mp (not_kept.mpr ⟨d, hd, rfl⟩)).1
    · intro p hp hpn
      obtain ⟨bundle, hbundle, hr⟩ :=
        (attached_ref_iff hacc.copies hacc.owned).mpr ⟨p, hp, rfl⟩
      exact hspares n hn bundle hbundle p.1 hr hpn

variable {replacement : SparseCanonicalReplacement B H}

omit [DecidableEq H] in
/-- The attached blocks of a replacement are above the finalized height. -/
theorem replacement_attached_above (hacc : SparseAccepted replacement items)
    (hfin : checkReplacementFinality s replacement = .ok ()) (hn : n ∈ s.finalizedNumber) :
    ∀ p ∈ items, n < p.1.number := by
  intro p hp
  obtain ⟨hanc, hstart⟩ := checkReplacementFinality_ok hfin n hn
  obtain ⟨q, rest, hrest⟩ := exists_cons_of_ne_nil (ne_nil_of_mem hp)
  have hlinked := hacc.linked
  have hstarts := hacc.starts q.1 (by rw [hrest]; rfl)
  rw [hrest, map_cons] at hlinked
  have hle : q.1.number ≤ p.1.number := by
    refine hlinked.le_of_mem ?_
    rw [← map_cons, ← hrest]
    exact mem_map_of_mem hp
  refine lt_of_lt_of_le ?_ hle
  cases hancestor : replacement.ancestor with
  | none =>
    rw [hancestor] at hstarts
    rw [hstarts]
    exact hstart hancestor
  | some a =>
    rw [hancestor] at hstarts
    have hval := Follows.val_succ hstarts
    have hle' := hanc a hancestor
    rw [Fin.le_def] at hle'
    rw [Fin.lt_def]
    omega

variable {result : CoreCoverage H}

/-- A replacement preserves the finalized part exactly when, in its generalized
    form, it detaches above the finalized height. -/
theorem replaceHighestCanonicalSegment_preserved_iff [ToString H] (hs : WellFormed s)
    (h : (replaceHighestCanonicalSegment replacement).run s = (.ok result, t)) :
    (∀ n ∈ s.finalizedNumber, PreservedThrough n s t)
      ↔ (Call.replaceHighestCanonicalSegment replacement).SparesFinalized s := by
  obtain ⟨items, start, ranges, checkpoint, hitems, hadm, rfl⟩ :=
    replaceHighestCanonicalSegment_run h
  have hacc := validateSparseCanonicalReplacement_ok hitems
  obtain ⟨-, hcanonical, -, -, -⟩ := afterReplacement_maps s replacement items ranges checkpoint
  constructor
  · intro hkeep _ n hn d hd
    by_contra hle
    have habove := replacement_attached_above hacc hadm.finalized hn
    have hread := hadm.detached d hd
    rw [hs.canonicalRef_eq] at hread
    have hafter := hkeep n hn d.number (not_lt.mp hle) d.hash
      (hs.refAt_some (Except.ok.inj hread)).2
    -- the detached height is not attached again, so it is free afterwards
    rw [hcanonical] at hafter
    rcases lookup_insertAll_cases hafter with ⟨p, hp, hpn, -⟩ | ⟨-, hold⟩
    · exact hle (by rw [← hpn]; exact habove p hp)
    · exact (lookup_eraseAll.mp hold).1 d hd rfl
  · intro hspares n hn
    have habove := replacement_attached_above hacc hadm.finalized hn
    refine preserved_next hcanonical ?_ fun p hp hpn => absurd (habove p hp) (not_lt.mpr hpn)
    intro d hd
    cases hancestor : replacement.ancestor with
    | none =>
      have hrange := hacc.detaches_only hancestor d hd
      exact lt_of_lt_of_le ((checkReplacementFinality_ok hadm.finalized n hn).2 hancestor) hrange.1
    | some a =>
      exact hspares (by rw [hancestor]; exact some_ne_none a) n hn d hd

/-- A segment commit changes no canonical block. -/
theorem commitCanonicalSegment_preserved {bundles : List B}
    (hs : WellFormed s) (h : (commitCanonicalSegment bundles).run s = (.ok result, t))
    (n : Uint64) : PreservedThrough n s t := by
  obtain ⟨items, start, ranges, checkpoint, hitems, hadm, rfl⟩ := commitCanonicalSegment_run h
  obtain ⟨-, hcanonical, -, -, -, -⟩ := afterSegment_maps s [] items ranges checkpoint
  refine preserved_next hcanonical (fun d hd => absurd hd not_mem_nil) ?_
  intro p hp _ hash hlook
  obtain ⟨existing, hread, hsame⟩ := bind_eq_ok.mp (hadm.heights p hp)
  rw [hs.canonicalRef_eq] at hread
  rw [failIf_eq_ok] at hsame
  have hmap := hs.refAt_map_hash p.1.number
  rw [ok.inj hread, hlook] at hmap
  obtain ⟨e, he, rfl⟩ := map_eq_some_iff.mp hmap
  by_contra hne
  exact hsame ⟨e, he, .inl hne⟩

/-- A commit changes no canonical block. -/
theorem commitCanonical_preserved {bundle : B} {checkpoint : Checkpoint H}
    (h : (commitCanonical bundle checkpoint).run s = (.ok u, t)) (n : Uint64) :
    PreservedThrough n s t := by
  obtain ⟨copy, reference, -, -, -, -, h⟩ := commitCanonical_run.mp h
  rcases h with ⟨-, rfl⟩ | ⟨hfree, -, rfl⟩
  · exact fun m _ hash hlook => hlook
  · intro m _ hash hlook
    have hne : m ≠ reference.number := by
      rintro rfl
      rw [hfree] at hlook
      cases hlook
    show (s.canonical.insert _ _).lookup m = some hash
    rw [Finmap.lookup_insert_of_ne _ hne]
    exact hlook

variable {call : Call B H}

/-- **What a successful call preserves.**  It leaves every canonical block at or
    below the finalized height exactly when it meets `SparesFinalized`. -/
theorem Call.preserved_iff [ToString H] (hs : WellFormed s) (h : call.exec.run s = (.ok u, t)) :
    (∀ n ∈ s.finalizedNumber, PreservedThrough n s t) ↔ call.SparesFinalized s := by
  cases call with
  | configureIndex start =>
    refine ⟨fun _ => trivial, fun _ n _ m _ hash hlook => ?_⟩
    rcases configureIndex_run h with ⟨-, rfl⟩ | ⟨-, _, ranges, coverage, -, -, -, rfl⟩
    · exact hlook
    · cases coverage.contiguous <;> exact hlook
  | commitCanonical bundle checkpoint =>
    exact ⟨fun _ => trivial, fun _ n _ => commitCanonical_preserved h n⟩
  | commitCanonicalSegment bundles =>
    obtain ⟨result, hrun, rfl⟩ := run_map_ok h
    exact ⟨fun _ => trivial, fun _ n _ => commitCanonicalSegment_preserved hs hrun n⟩
  | applyReorg reorg => exact applyReorg_preserved_iff hs h
  | replaceHighestCanonicalSegment replacement =>
    obtain ⟨result, hrun, rfl⟩ := run_map_ok h
    exact replaceHighestCanonicalSegment_preserved_iff hs hrun
  | refreshCanonical bundle options =>
    obtain ⟨copy, reference, -, -, -, -, -, rfl⟩ := refreshCanonical_run.mp h
    exact ⟨fun _ => trivial, fun _ n _ m _ hash hlook => hlook⟩
  | updateFinality finality =>
    obtain ⟨-, -, -, -, rfl⟩ := updateFinality_run.mp h
    exact ⟨fun _ => trivial, fun _ n _ m _ hash hlook => hlook⟩
  | appendJournal entry =>
    obtain ⟨-, -, -, -, rfl⟩ := appendJournal_run.mp h
    exact ⟨fun _ => trivial, fun _ n _ m _ hash hlook => hlook⟩

theorem checkMarkerCanonical_ok {name : String} {marker : Option (BlockRef H)}
    (hs : WellFormed s) (h : checkMarkerCanonical s name marker = .ok ()) :
    ∀ r ∈ marker, s.canonical.lookup r.number = some r.hash := by
  rintro r rfl
  obtain ⟨canonical, hread, hsame⟩ := bind_eq_ok.mp h
  rw [failIf_eq_ok, not_not] at hsame
  rw [hs.canonicalRef_eq] at hread
  rw [← hs.refAt_map_hash, ok.inj hread]
  exact hsame

omit [ChainBundle B H] in
/-- A marker that passed the regression check is not below the previous one. -/
theorem checkMarkerRegression_ok {name : String} {previous next : Option (BlockRef H)}
    (h : checkMarkerRegression name previous next = .ok ()) :
    ∀ p ∈ previous, ∃ q ∈ next, p.number ≤ q.number := by
  rintro p rfl
  cases next with
  | none => cases h
  | some q =>
    obtain ⟨_, hlt, -⟩ := bind_eq_ok.mp h
    exact ⟨q, rfl, not_lt.mp (failIf_eq_ok.mp hlt)⟩

/-- A successful `UpdateFinality` stores a canonical marker that is not below the
    previous one. -/
theorem updateFinality_finalized {finality : Finality H} (hs : WellFormed s)
    (h : (updateFinality finality).run s = (.ok u, t)) :
    FinalizedCanonical t ∧ ∀ marker, s.finalized = some marker →
      ∃ later, t.finalized = some later ∧ marker.number ≤ later.number := by
  obtain ⟨-, -, hcanon, hstored, rfl⟩ := updateFinality_run.mp h
  have hmarker := checkMarkerCanonical_ok hs hcanon
  refine ⟨fun marker hm => hmarker marker hm, ?_⟩
  intro marker hm
  obtain ⟨previous, hprevious, hfin⟩ := bind_eq_some_iff.mp hm
  rw [checkStoredFinality, hprevious] at hstored
  obtain ⟨_, -, hregress⟩ := bind_eq_ok.mp hstored
  exact checkMarkerRegression_ok hregress marker hfin

/-- **One step.**  A call that spares the finalized part, or fails, keeps the
    marker and leaves it canonical. -/
theorem Call.keepsFinalized [ToString H] (call : Call B H) (hs : WellFormed s)
    (hfin : FinalizedCanonical s)
    (hspares : (call.exec.run s).1.isOk = true → call.SparesFinalized s) :
    KeepsFinalized s (call.next s) ∧ FinalizedCanonical (call.next s) := by
  rw [Call.next]
  rcases hrun : call.exec.run s with ⟨err | u, t⟩
  · rw [Call.atomic hs.unconfigured hrun]
    exact ⟨KeepsFinalized.refl hfin, hfin⟩
  · have hkeep := (Call.preserved_iff hs hrun).mpr (hspares (by rw [hrun]; rfl))
    have hbelow : ∀ marker, s.finalized = some marker → PreservedThrough marker.number s t := by
      intro marker hmarker
      refine hkeep marker.number ?_
      rw [MemoryChain.finalizedNumber_eq, hmarker]
      rfl
    rcases (Call.frame hrun).2.1 with hsame | ⟨finality, rfl⟩
    · -- the marker itself did not change
      have hmark : t.finalized = s.finalized := by
        rw [MemoryChain.finalized, hsame]
        rfl
      have hcanon : FinalizedCanonical t := by
        intro marker hmarker
        rw [hmark] at hmarker
        exact hbelow marker hmarker _ le_rfl _ (hfin marker hmarker)
      refine ⟨fun marker hmarker => ⟨⟨marker, hmark.trans hmarker, le_rfl, ?_⟩, ?_,
        hbelow marker hmarker⟩, hcanon⟩
      · exact hcanon marker (hmark.trans hmarker)
      · exact hcanon marker (hmark.trans hmarker)
    · obtain ⟨hcanon, hlater⟩ := updateFinality_finalized hs hrun
      refine ⟨fun marker hmarker => ?_, hcanon⟩
      obtain ⟨later, hlat, hle⟩ := hlater marker hmarker
      exact ⟨⟨later, hlat, hle, hcanon later hlat⟩,
        hbelow marker hmarker _ le_rfl _ (hfin marker hmarker), hbelow marker hmarker⟩

end Step

/-! ## Runs -/

section Runs

variable [DecidableEq H] [ChainBundle B H] [ToString H] {s : MemoryChain B H}

/-- Every state of a run keeps the finalized markers of all earlier states. -/
def FinalityPermanentFrom (s : MemoryChain B H) (calls : List (Call B H)) : Prop :=
  ∀ i j, i ≤ j → j ≤ calls.length →
    KeepsFinalized (runCalls s (calls.take i)) (runCalls s (calls.take j))

/-- Finality is permanent in a run of an empty repository. -/
def FinalityPermanent (calls : List (Call B H)) : Prop :=
  FinalityPermanentFrom MemoryChain.empty calls

/-- Every successful call of a run spares the finalized part of the chain. -/
def RunSparesFinalized (s : MemoryChain B H) (calls : List (Call B H)) : Prop :=
  ∀ (i : Nat) (call : Call B H), calls[i]? = some call →
    (call.exec.run (runCalls s (calls.take i))).1.isOk = true →
      call.SparesFinalized (runCalls s (calls.take i))

variable {calls : List (Call B H)}

theorem runCalls_take_succ {i : Nat} {call : Call B H} (h : calls[i]? = some call) :
    runCalls s (calls.take (i + 1)) = call.next (runCalls s (calls.take i)) :=
  stateAt_succ _ s calls h

/-- **The run.**  From a well-formed state with a canonical marker. -/
theorem permanent_of_spares (hs : WellFormed s)
    (hfin : FinalizedCanonical s) (hspares : RunSparesFinalized s calls) :
    FinalityPermanentFrom s calls := by
  induction calls generalizing s with
  | nil =>
    intro i j _ _
    rw [take_nil, take_nil]
    exact KeepsFinalized.refl hfin
  | cons call rest ih =>
    obtain ⟨hstep, hfin'⟩ := call.keepsFinalized hs hfin (hspares 0 call rfl)
    have hrest := ih (call.wellFormed hs) hfin' fun i => hspares (i + 1)
    intro i j hij hj
    cases j with
    | zero =>
      rw [Nat.le_zero.mp hij]
      exact KeepsFinalized.refl hfin
    | succ j =>
      have hj' : j ≤ rest.length := Nat.le_of_succ_le_succ hj
      cases i with
      | zero => exact hstep.trans (hrest 0 j (Nat.zero_le j) hj')
      | succ i => exact hrest i j (Nat.le_of_succ_le_succ hij) hj'

/-- **Finality is permanent** in a run from an empty repository if and only if
    every successful call of the run spares the finalized part of the chain. -/
theorem finality_permanent_iff (calls : List (Call B H)) :
    FinalityPermanent calls ↔ RunSparesFinalized MemoryChain.empty calls := by
  constructor
  · intro hperm i call hcall hok
    have hs :=
      wellFormed_runCalls (calls.take i) (wellFormed_empty : WellFormed (B := B) (H := H) _)
    have hlt := (List.getElem?_eq_some_iff.mp hcall).1
    have hkeep := hperm i (i + 1) (Nat.le_succ i) hlt
    rw [runCalls_take_succ hcall] at hkeep
    refine (Call.preserved_iff hs (Call.run_of_isOk hok)).mp ?_
    intro n hn
    rw [MemoryChain.finalizedNumber_eq] at hn
    obtain ⟨marker, hmarker, rfl⟩ := map_eq_some_iff.mp hn
    exact (hkeep marker hmarker).below
  · intro hspares
    exact permanent_of_spares wellFormed_empty (fun marker hmarker => by cases hmarker) hspares

end Runs

section Examples

/-- Heights 0 to 3 and an island at 10, with height 2 finalized; the replacement of
    the island names block 2 as its ancestor and detaches block 1. -/
def lowReplacementRun : List (Call TermBundle TermHash) :=
  [.configureIndex 0, .commitCanonicalSegment [block0, block1, block2, block3],
    .commitCanonicalSegment [⟨10, .genesis, 0⟩],
    .updateFinality { safe := none, finalized := some block2.ref },
    .replaceHighestCanonicalSegment
      { range := ⟨10, 10⟩, ancestor := some block2.ref,
        detached := ⟨[TermBundle.ref ⟨10, .genesis, 0⟩, block1.ref], by decide⟩,
        attached := ⟨[⟨3, block2.hash, 1⟩], by decide⟩, reason := "low" }]

/-- The block at the last height. -/
def lastBlock : TermBundle := ⟨maxUint64, .genesis, 0⟩

/-- The block after the last height, whose height is 0 again. -/
def wrapped : TermBundle := ⟨0, lastBlock.hash, 0⟩

/-- Another block after the last height. -/
def wrappedFork : TermBundle := ⟨0, lastBlock.hash, 1⟩

/-- Height 0 is committed on top of the last height and finalized; a reorg with the
    last height as its ancestor then writes over it. -/
def wrappingRun : List (Call TermBundle TermHash) :=
  [.commitCanonical lastBlock (newCoreCheckpoint lastBlock.ref),
    .commitCanonical wrapped { newCoreCheckpoint wrapped.ref with stage := "tail" },
    .updateFinality { safe := none, finalized := some wrapped.ref },
    .applyReorg
      { ancestor := lastBlock.ref, detached := emptySlice,
        attached := ⟨[wrappedFork], by decide⟩, checkpoint := newCoreCheckpoint wrappedFork.ref,
        reason := "wrap" }]

/-- In both runs every call succeeds and the last one changes the finalized part of
    the chain. -/
theorem finality_not_permanent :
    ((runCalls .empty (lowReplacementRun.take 4)).canonical.lookup 1 = some block1.hash
      ∧ (runCalls .empty lowReplacementRun).canonical.lookup 1 = none
      ∧ ¬ FinalityPermanent lowReplacementRun)
    ∧ ((runCalls .empty (wrappingRun.take 3)).canonical.lookup 0 = some wrapped.hash
      ∧ (runCalls .empty wrappingRun).canonical.lookup 0 = some wrappedFork.hash
      ∧ ¬ FinalityPermanent wrappingRun) := by
  refine ⟨⟨by decide +kernel, by decide +kernel, fun h => ?_⟩,
    by decide +kernel, by decide +kernel, fun h => ?_⟩
  · have hkeep := (h 4 5 (by decide) (by decide) block2.ref (by decide +kernel)).below
    exact absurd (hkeep 1 (by decide +kernel) block1.hash (by decide +kernel)) (by decide +kernel)
  · have hkeep := (h 3 4 (by decide) (by decide) wrapped.ref (by decide +kernel)).block
    exact absurd hkeep (by decide +kernel)

end Examples

end Store
