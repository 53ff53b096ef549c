import Etherview.IndexerLane
import Etherview.StoreBoundary

/-! # The ancestry loop

    `Canonicalizer.walk` counts the parent fetches that are left, and its heights are
    words that may wrap.  `traverse` is the loop as the source writes it: it counts the
    fetches that were made and runs until something stops it.  Its arithmetic and the
    heights that it looks at pass through a `Monitor`, which computes as Go does or stops
    the program.

    `ancestry_bounded` says that no monitor ever interferes: the loop ends within its
    budget of fetches, no addition or subtraction wraps, and no height below the start
    block or the candidate is looked at, whatever the repository and the block sources
    answer. -/

namespace Indexer

open Store Interaction Transact IntervalSet Prog Fin

variable {B H : Type} [DecidableEq H] [ChainBundle B H] [ToString H]

/-! ## The loop of the source -/

/-- What watches a traversal: its `uint64` arithmetic and the heights it looks at. -/
structure Monitor where
  add : Uint64 → Uint64 → Except IndexError Uint64
  sub : Uint64 → Uint64 → Except IndexError Uint64
  inspect : Uint64 → Except IndexError Unit

/-- Go: the arithmetic wraps and nothing is watched. -/
def Monitor.wrapping : Monitor where
  add := fun a b => .ok (a + b)
  sub := fun a b => .ok (a - b)
  inspect := fun _ => .ok ()

/-- Arithmetic that stops instead of wrapping, and heights from `floor` on only. -/
def Monitor.strict (floor : Uint64) (stuck : IndexError) : Monitor where
  add := fun a b => if a.val + b.val < 18446744073709551616 then .ok (a + b) else .error stuck
  sub := fun a b => if b ≤ a then .ok (a - b) else .error stuck
  inspect := fun n => failIf (n < floor) stuck

/-- A monitor that stops nothing but a wrap or a height below `floor`. -/
structure Monitor.Lenient (m : Monitor) (floor : Uint64) : Prop where
  add : ∀ {a b : Uint64}, a.val + b.val < 18446744073709551616 → m.add a b = .ok (a + b)
  sub : ∀ {a b : Uint64}, b ≤ a → m.sub a b = .ok (a - b)
  inspect : ∀ {n : Uint64}, floor ≤ n → m.inspect n = .ok ()

theorem Monitor.wrapping_lenient (floor : Uint64) : Monitor.wrapping.Lenient floor :=
  ⟨fun _ => rfl, fun _ => rfl, fun _ => rfl⟩

theorem Monitor.strict_lenient (floor : Uint64) (stuck : IndexError) :
    (Monitor.strict floor stuck).Lenient floor where
  add := fun h => if_pos h
  sub := fun h => if_pos h
  inspect := fun h => failIf_eq_ok.mpr (not_lt.mpr h)

namespace Canonicalizer

variable (c : Canonicalizer)

/-- `maximumAncestryFetches`. -/
def ancestryBudget (m : Monitor) (forwardGap : Uint64) : Except IndexError Uint64 := do
  let room ← m.sub maxUint64 c.maxReorgDepth
  if room < forwardGap then pure maxUint64 else m.add c.maxReorgDepth forwardGap

/-- `shouldResolveSparseHead`. -/
def resolvesSparseHead (m : Monitor) (ranges : List BlockRange) (candidate tip : BlockRef H) :
    Except IndexError Bool :=
  match ranges.getLast?, ranges.dropLast.getLast? with
  | some top, some previous =>
    if candidate.number ≠ tip.number then .ok false
    else if top.stop ≠ tip.number ∨ top.start ≤ previous.stop
        ∨ previous.stop = maxUint64 then
      .ok false
    else do
      let distance ← m.sub top.start previous.stop
      let gap ← m.sub distance 1
      pure (decide (gap ≤ c.maxReorgDepth))
  | _, _ => .ok false

/-- The forward gap of a candidate. -/
def forwardGap (m : Monitor) (candidate tip : BlockRef H) : Except IndexError Uint64 :=
  if candidate.number > tip.number then do
    let gap ← m.sub candidate.number tip.number
    failIf (gap > c.maxReorgDepth) (IndexError.detailed .gap
        (s!"candidate gap {gap.val} exceeds bounded ancestry work " ++ s!"{c.maxReorgDepth.val}"))
    pure gap
  else pure 0

/-- The part of the loop for a cursor that is not above the tip. -/
def traverseBelowTip (m : Monitor) (w : WalkContext H) (cursor : BlockRef H)
    (finality : Option (Option (Finality H))) :
    IndexM B H (BlockRef H ⊕ Option (Option (Finality H))) := do
  let canonical ← canonicalBlock cursor.number
    s!"read canonical ancestor candidate {cursor.number.val}"
  let inside := w.resolvingKnownSparseHead &&
    w.sparseTop.any fun top => decide (top.start ≤ cursor.number)
  match canonical.filter fun known => known.hash = cursor.hash ∧ inside = false with
  | some ancestor => pure (.inl ancestor)
  | none => do
      let distanceBelowTip ← m.sub w.tip.number cursor.number
      failIf (distanceBelowTip ≥ c.maxReorgDepth) (IndexError.detailed .reorgTooDeep
          (s!"alternate block {cursor.number.val} requires depth greater than " ++
            s!"{c.maxReorgDepth.val}"))
      let loaded ← loadFinality finality
      checkFinalized loaded (fun finalized => cursor.number ≤ finalized) fun finalized =>
        s!"alternate block {cursor.number.val} reaches finalized block {finalized.val}"
      pure (.inr (some loaded))

/-- The ancestor is looked for at heights up to the tip only. -/
def traverseStatus (m : Monitor) (w : WalkContext H) (cursor : BlockRef H)
    (finality : Option (Option (Finality H))) :
    IndexM B H (BlockRef H ⊕ Option (Option (Finality H))) :=
  if cursor.number ≤ w.tip.number then c.traverseBelowTip m w cursor finality
  else pure (.inr finality)

/-- The loop body up to the parent fetch. -/
def traverseStep (m : Monitor) (w : WalkContext H) (cursor : BlockRef H) (bundle : B)
    (above : List (BlockRef H × B)) (finality : Option (Option (Finality H))) :
    IndexM B H (WalkEnd B H ⊕ Option (Option (Finality H))) := do
  match ← c.traverseStatus m w cursor finality with
  | .inl ancestor => pure (.inl (.ancestor ancestor above))
  | .inr finality =>
    if w.sparseTop.map Span.start = some cursor.number ∧ w.resolvingKnownSparseHead = false then
      pure (.inl (.sparseStart ((cursor, bundle) :: above)))
    else do
      failIf (cursor.number = 0 ∨ cursor.number ≤ c.startBlock)
        (⟨.noCommonAncestor, Cause.noCommonAncestor.text ++
          s!" above configured start block {c.startBlock.val}"⟩ : IndexError)
      pure (.inr finality)

/-- `chainbundle.ValidateParent`, its errors marked as inconsistencies of the source. -/
def checkParent (m : Monitor) (child parent : B) : Except IndexError Unit := do
  let childNumber ← (ChainBundle.number child).mapError (IndexError.detailed .sourceInconsistent)
  let parentNumber ← (ChainBundle.number parent).mapError
      (IndexError.detailed .sourceInconsistent)
  let refused := IndexError.detailed .sourceInconsistent
    (s!"block.number: child {childNumber.val} does not immediately follow " ++
      s!"parent {parentNumber.val}")
  failIf (parentNumber = maxUint64) refused
  let next ← m.add parentNumber 1
  failIf (childNumber ≠ next) refused
  let parentHash ← (ChainBundle.blockHash parent).mapError
      (IndexError.detailed .sourceInconsistent)
  failIf (ChainBundle.parentHash child ≠ parentHash)
    (IndexError.detailed .sourceInconsistent "block.parentHash: does not match supplied parent")

/-- The parent fetch with its checks. -/
def traverseParent (m : Monitor) (w : WalkContext H) (cursor : BlockRef H) (bundle : B) :
    IndexM B H B := do
  let parent ← c.parentBundle cursor.parentHash w.authoritativeHead
  let parent ← require parent
    (.detailed .gap s!"parent {cursor.parentHash} of block {cursor.hash} is unavailable")
  validate parent fun text =>
    .detailed .sourceInconsistent s!"invalid parent bundle: {text}"
  checkParent m bundle parent
  pure parent

/-- The ancestry loop.  The source has no bound on its rounds: `fuel` is one, and
    `stuck` is what a loop that uses it up would end with. -/
def traverse (m : Monitor) (stuck : IndexError) (w : WalkContext H) :
    Nat → Uint64 → B → List (BlockRef H × B) → Option (Option (Finality H)) →
      IndexM B H (WalkEnd B H)
  | 0, _, _, _, _ => .fail stuck
  | fuel + 1, parentFetches, bundle, above, finality => do
      let cursor ← refOf bundle
      m.inspect cursor.number
      match ← c.traverseStep m w cursor bundle above finality with
      | .inl ending => pure ending
      | .inr finality => do
          failIf (parentFetches ≥ w.maximumParentFetches)
            (IndexError.detailed (if cursor.number > w.tip.number then .gap else .reorgTooDeep)
              s!"ancestry traversal reached {w.maximumParentFetches.val} parent bundles")
          let parent ← c.traverseParent m w cursor bundle
          let parentFetches ← m.add parentFetches 1
          traverse m stuck w fuel parentFetches parent ((cursor, bundle) :: above) finality

/-- `apply` from the forward gap on. -/
def connectWith (m : Monitor) (stuck : IndexError) (fuel : Nat) (candidate : B)
    (candidateRef tip : BlockRef H) (coverage : Option (CoreCoverage H))
    (known authoritativeHead : Bool) : IndexM B H (ApplyResult H) := do
  failIf (candidateRef.number < tip.number ∧ authoritativeHead = false)
    (IndexError.detailed .staleHead
      s!"candidate {candidateRef.number.val}, canonical tip {tip.number.val}")
  let gap ← c.forwardGap m candidateRef tip
  let maximumParentFetches ← c.ancestryBudget m gap
  let w : WalkContext H :=
    { authoritativeHead := authoritativeHead, tip := tip, sparseTop := sparseTopOf coverage tip
      resolvingKnownSparseHead := (sparseTopOf coverage tip).isSome && known
      maximumParentFetches := maximumParentFetches }
  let ending ← c.traverse m stuck w fuel 0 candidate [] none
  c.finish w candidateRef (rangesOf coverage) ending

/-! ## Where a monitor is asked -/

section Monitored

variable {c} {m : Monitor} {floor : Uint64} (hm : m.Lenient floor)
include hm

/-- Under a lenient monitor the budget is the source's. -/
theorem ancestryBudget_eq (gap : Uint64) :
    c.ancestryBudget m gap = .ok (c.maximumAncestryFetches gap) := by
  have hroom : c.maxReorgDepth ≤ maxUint64 := le_maxUint64 _
  refine bind_eq_ok.mpr ⟨_, hm.sub hroom, ?_⟩
  rw [maximumAncestryFetches]
  by_cases hfull : maxUint64 - c.maxReorgDepth < gap
  · rw [if_pos hfull, if_pos hfull]
    exact pure_eq_ok.mpr rfl
  · rw [if_neg hfull, if_neg hfull]
    refine hm.add ?_
    rw [not_lt, le_def, sub_val_of_le hroom, maxUint64_val] at hfull
    omega

omit [DecidableEq H] [ToString H] in
/-- Under a lenient monitor the sparse decision is the source's. -/
theorem resolvesSparseHead_eq (ranges : List BlockRange) (candidate tip : BlockRef H) :
    c.resolvesSparseHead m ranges candidate tip
      = .ok (c.shouldResolveSparseHead ranges candidate tip) := by
  rw [resolvesSparseHead, shouldResolveSparseHead]
  cases ranges.getLast? with
  | none => rfl
  | some top =>
    cases ranges.dropLast.getLast? with
    | none => rfl
    | some previous =>
      dsimp only
      split_ifs with hheight hskip
      · refine congrArg Except.ok (decide_eq_false fun h => hheight h.1).symm
      · refine congrArg Except.ok (decide_eq_false fun h => ?_).symm
        rcases hskip with hstop | hstart | hmax
        · exact hstop h.2.1
        · exact absurd h.2.2.1 (not_lt.mpr hstart)
        · exact h.2.2.2.1 hmax
      · rw [not_or, not_or, not_not, not_le] at hskip
        obtain ⟨hstop, hlt, hmax⟩ := hskip
        have hone : (1 : Uint64) ≤ top.start - previous.stop := by
          rw [le_def, sub_val_of_le hlt.le]
          have : previous.stop.val < top.start.val := hlt
          show 1 ≤ _
          omega
        refine bind_eq_ok.mpr ⟨_, hm.sub hlt.le, bind_eq_ok.mpr ⟨_, hm.sub hone, ?_⟩⟩
        refine pure_eq_ok.mpr (decide_eq_decide.mpr ?_)
        exact ⟨fun h => ⟨not_not.mp hheight, hstop, hlt, hmax, h⟩, fun h => h.2.2.2.2⟩

omit [DecidableEq H] [ToString H] in
/-- The forward gap is a difference of heights that are compared first. -/
theorem forwardGap_eq (candidate tip : BlockRef H) : c.forwardGap m candidate tip = (do
      failIf (candidate.number > tip.number ∧ candidate.number - tip.number > c.maxReorgDepth)
        (IndexError.detailed .gap
          (s!"candidate gap {(candidate.number - tip.number).val} exceeds bounded ancestry work " ++
            s!"{c.maxReorgDepth.val}"))
      pure (if candidate.number > tip.number then candidate.number - tip.number else 0)) := by
  rw [forwardGap]
  by_cases habove : candidate.number > tip.number
  · rw [if_pos habove, if_pos habove, hm.sub habove.le]
    by_cases hdeep : candidate.number - tip.number > c.maxReorgDepth
    · rw [failIf, if_pos ⟨habove, hdeep⟩]
      show (failIf _ _ >>= fun _ => _) = _
      rw [failIf, if_pos hdeep]
    · rw [failIf, if_neg fun h => hdeep h.2]
      show (failIf _ _ >>= fun _ => _) = _
      rw [failIf, if_neg hdeep]
  · rw [if_neg habove, if_neg habove, failIf, if_neg fun h => habove h.1]
    rfl

omit [ChainBundle B H] [ToString H] in
/-- Below the tip, a monitored walk does what the walk does. -/
theorem traverseBelowTip_eq {w : WalkContext H} {cursor : BlockRef H}
    (hle : cursor.number ≤ w.tip.number) (finality : Option (Option (Finality H))) :
    (c.traverseBelowTip m w cursor finality : IndexM B H _) = c.walkBelowTip w cursor finality := by
  refine congrArg (Bind.bind _) (funext fun canonical => ?_)
  rw [hm.sub hle]
  rfl

omit [ChainBundle B H] [ToString H] in
/-- A monitored step does what a step of the walk does. -/
theorem traverseStep_eq (w : WalkContext H) (cursor : BlockRef H) (bundle : B)
    (above : List (BlockRef H × B)) (finality : Option (Option (Finality H))) :
    c.traverseStep m w cursor bundle above finality
      = c.walkStep w cursor bundle above finality := by
  have hstatus : (c.traverseStatus m w cursor finality : IndexM B H _)
      = c.walkStatus w cursor finality := by
    rw [traverseStatus, walkStatus]
    by_cases hle : cursor.number ≤ w.tip.number
    · rw [if_pos hle, if_pos hle, traverseBelowTip_eq hm hle]
    · rw [if_neg hle, if_neg hle]
  rw [traverseStep, hstatus]
  rfl

/-- The height after a parent is computed only below `MaxUint64`. -/
theorem checkNext_eq {α : Type} (parent child : Uint64) (err : IndexError)
    (k : Unit → Except IndexError α) :
    (failIf (parent = maxUint64) err >>= fun _ => m.add parent 1 >>= fun next =>
      failIf (child ≠ next) err >>= k)
      = failIf (parent = maxUint64 ∨ child ≠ parent + 1) err >>= k := by
  by_cases hmax : parent = maxUint64
  · rw [failIf, failIf, if_pos hmax, if_pos (.inl hmax)]
    rfl
  · have hadd : m.add parent 1 = .ok (parent + 1) := hm.add (by
      have := mt eq_maxUint64_iff.mpr hmax
      show parent.val + 1 < _
      omega)
    have hor : (parent = maxUint64 ∨ child ≠ parent + 1) ↔ child ≠ parent + 1 :=
      or_iff_right hmax
    rw [failIf, if_neg hmax, hadd]
    simp only [failIf, hor]
    rfl

omit [ToString H] in
theorem checkParent_eq (child parent : B) : checkParent m child parent
      = (validateParent child parent).mapError (IndexError.detailed .sourceInconsistent) := by
  simp only [checkParent, validateParent, mapError_bind, mapError_failIf, checkNext_eq hm]

theorem traverseParent_eq (w : WalkContext H) (cursor : BlockRef H) (bundle : B) :
    c.traverseParent m w cursor bundle = c.fetchParent w cursor bundle := by
  simp only [traverseParent, fetchParent, checkParent_eq hm]

end Monitored

/-! ## What a round asks -/

/-- No canonical block below `floor` is asked for. -/
def AsksFrom (floor : Uint64) : Request B H → Prop
  | .canonicalBlock number => floor ≤ number
  | _ => True

/-- Looking at canonical blocks and at the finality record is free, and a parent fetch
    costs at most one. -/
structure FetchCost (cost : Request B H → Nat) : Prop where
  canonicalBlock : ∀ number, cost (.canonicalBlock number) = 0
  finality : cost .finality = 0
  parent : ∀ hash head hash', cost (.bundleByHash hash) + cost (.source head hash') ≤ 1

/-- The world in which requests cost something and only heights from `floor` on are
    asked for. -/
def meter (cost : Request B H → Nat) (floor : Uint64) (limit : Nat) : World (interface B H) Nat :=
  World.metered cost (AsksFrom floor) limit

section Metered

variable {c} {cost : Request B H → Nat} (hcost : FetchCost cost) {floor : Uint64}
  {limit spent : Nat}

omit [DecidableEq H] [ChainBundle B H] [ToString H] in
/-- A request without cost spends nothing. -/
theorem free_ends {α δ : Type} {request : Request B H} {read : Answer request → Except δ α}
    {wrap : δ → IndexError} (hfree : cost request = 0) (hasks : AsksFrom floor request)
    (hspent : spent ≤ limit) :
    (query request read wrap : IndexM B H α).Sat (meter cost floor limit)
      (Ends (meter cost floor limit) spent fun _ _ => True) spent := by
  refine sat_query.mpr ?_
  rintro _ rfl
  refine ⟨⟨hasks, by rw [hfree]; exact hspent⟩, ?_⟩
  rintro answer _ rfl
  rw [hfree]
  cases read answer with
  | error err => exact rfl
  | ok value => exact ⟨rfl, trivial⟩

include hcost

omit [ChainBundle B H] [ToString H] in
/-- A round that goes on is above the start block. -/
theorem walkStep_metered (w : WalkContext H) {cursor : BlockRef H}
    (hfloor : floor ≤ cursor.number)
    (hspent : spent ≤ limit) (bundle : B) (above : List (BlockRef H × B))
    (finality : Option (Option (Finality H))) :
    (c.walkStep w cursor bundle above finality).Sat (meter cost floor limit)
      (Ends (meter cost floor limit) spent fun answer _ =>
        ∀ loaded, answer = .inr loaded → c.startBlock < cursor.number) spent := by
  have hfinality : (loadFinality finality : IndexM B H _).Sat (meter cost floor limit)
      (Ends (meter cost floor limit) spent fun _ _ => True) spent := by
    cases finality with
    | some loaded => exact ends_pure trivial
    | none => exact free_ends hcost.finality trivial hspent
  have hstatus : (c.walkStatus w cursor finality : IndexM B H _).Sat (meter cost floor limit)
      (Ends (meter cost floor limit) spent fun _ _ => True) spent := by
    rw [walkStatus]
    split_ifs
    · refine ends_bind (free_ends (hcost.canonicalBlock _) hfloor hspent) ?_
      rintro canonical _ rfl -
      dsimp only
      split
      · exact ends_pure trivial
      · refine ends_check fun _ _ => ends_bind hfinality ?_
        rintro loaded _ rfl -
        exact ends_check fun _ _ => ends_pure trivial
    · exact ends_pure trivial
  refine ends_bind hstatus ?_
  rintro (ancestor | loaded) _ rfl -
  · refine ends_pure ?_
    rintro _ ⟨⟩
  · dsimp only
    split
    · refine ends_pure ?_
      rintro _ ⟨⟩
    · refine ends_check fun _ hstart => ends_pure fun _ _ => ?_
      exact not_le.mp fun hle => failIf_eq_ok.mp hstart (.inr hle)

omit [DecidableEq H] [ChainBundle B H] in
/-- A parent costs one fetch at most. -/
theorem parentBundle_metered (hash : H) (authoritativeHead : Bool) (hspent : spent + 1 ≤ limit) :
    (c.parentBundle hash authoritativeHead : IndexM B H _).Sat (meter cost floor limit)
      (fun _ spent' => spent' ≤ spent + 1) spent := by
  have hsource : ∀ (head : Bool) (context : String),
      (sourceBundle head hash context : IndexM B H _).Sat (meter cost floor limit)
        (fun _ spent' => spent' ≤ spent + 1) (spent + cost (.bundleByHash hash)) := by
    intro head context
    have hle := hcost.parent hash head hash
    refine sat_query.mpr ?_
    rintro _ rfl
    refine ⟨⟨trivial, by omega⟩, ?_⟩
    rintro answer _ rfl
    omega
  have hstore : spent + cost (.bundleByHash hash) ≤ spent + 1 := by
    have hle := hcost.parent hash true hash
    omega
  refine sat_bind.mpr (sat_query.mpr ?_)
  rintro _ rfl
  refine ⟨⟨trivial, by omega⟩, ?_⟩
  rintro (err | _ | bundle) _ rfl
  · exact hstore
  · show Sat _ _ (ite _ _ _) _
    split_ifs
    · exact hsource _ _
    · exact hsource _ _
    · exact hstore
  · exact hstore

/-- A parent fetch costs at most one, and the bundle follows the parent. -/
theorem fetchParent_metered (w : WalkContext H) (cursor : BlockRef H) (bundle : B)
    (hspent : spent + 1 ≤ limit) :
    (c.fetchParent w cursor bundle).Sat (meter cost floor limit)
      (fun out spent' => spent' ≤ spent + 1 ∧ ∀ parent, out = .ok parent →
        validateParent bundle parent = .ok ()) spent := by
  refine sat_bind.mpr ((parentBundle_metered hcost _ _ hspent).mono ?_)
  rintro (err | found) spent' hle
  · exact ⟨hle, fun _ h => by cases h⟩
  · have herror : ∀ err : IndexError, spent' ≤ spent + 1 ∧ ∀ parent,
        (Except.error err : Except IndexError B) = .ok parent →
          validateParent bundle parent = .ok () := fun _ => ⟨hle, fun _ h => by cases h⟩
    refine sat_check (fun parent _ => ?_) herror
    refine sat_check (fun _ _ => ?_) herror
    refine sat_check (fun _ hparent => ⟨hle, ?_⟩) herror
    rintro _ ⟨⟩
    exact mapError_eq_ok.mp hparent

omit hcost [ToString H] in
/-- The parent of a block above the start block is not below it. -/
theorem parent_floor {child parent : B} {cursor parentRef : BlockRef H}
    (hcursor : refFromBundle child = .ok cursor) (hparentRef : refFromBundle parent = .ok parentRef)
    (hparent : validateParent child parent = .ok ()) (hstart : c.startBlock < cursor.number)
    (hfloor : floor ≤ c.startBlock) : floor ≤ parentRef.number := by
  have hnext := (validateParent_ok hparent hcursor hparentRef).val_succ
  rw [lt_def] at hstart
  rw [le_def] at hfloor ⊢
  omega

/-- **The walk** spends at most one per fetch that is left. -/
theorem walk_metered (w : WalkContext H) (hfloor : floor ≤ c.startBlock) (left : Nat) {bundle : B}
    (hbundle : ∀ cursor, refFromBundle bundle = .ok cursor → floor ≤ cursor.number)
    (above : List (BlockRef H × B)) (finality : Option (Option (Finality H)))
    (hspent : spent + left ≤ limit) :
    (c.walk w left bundle above finality).Sat (meter cost floor limit)
      (fun _ spent' => spent' ≤ limit) spent := by
  induction left generalizing bundle above finality spent with
  | zero =>
    refine sat_check (fun cursor hcursor => ?_) fun _ => hspent
    refine sat_then (walkStep_metered hcost w (hbundle cursor (refOf_ok hcursor)) hspent
      bundle above finality) ?_ ?_
    · rintro (ending | loaded) _ rfl -
      · exact hspent
      · exact hspent
    · rintro _ _ rfl
      exact hspent
  | succ left ih =>
    have hle : spent ≤ limit := by omega
    refine sat_check (fun cursor hcursor => ?_) fun _ => hle
    have hcursor := refOf_ok hcursor
    refine sat_then (walkStep_metered hcost w (hbundle cursor hcursor) hle
      bundle above finality) ?_ ?_
    · rintro (ending | loaded) _ rfl hstart
      · exact hle
      · refine sat_bind.mpr ((fetchParent_metered hcost w cursor bundle (by omega)).mono ?_)
        rintro (err | parent) spent' ⟨hspent', hparent⟩
        · show spent' ≤ limit
          omega
        · refine ih (fun parentRef hparentRef => ?_) _ _ (by omega)
          exact parent_floor hcursor hparentRef (hparent parent rfl) (hstart loaded rfl) hfloor
    · rintro _ _ rfl
      exact hle

end Metered

/-! ## The two loops -/

section Loops

variable {c} {m : Monitor} {floor : Uint64} (hm : m.Lenient floor) (stuck : IndexError)
include hm

section

omit hm [DecidableEq H] [ChainBundle B H] [ToString H]

theorem freeCost : FetchCost (fun _ : Request B H => 0) :=
  ⟨fun _ => rfl, rfl, fun _ _ _ => Nat.zero_le _⟩

theorem meter_serves (cost : Request B H → Nat) (limit : Nat) (request : Request B H)
    (spent : Nat)
    (answer : Answer request) :
    ∃ spent', (meter cost floor limit).serves request spent answer spent' :=
  ⟨_, rfl⟩

end

/-- **The loop of the source is the walk**: it counts up to its budget as the walk
    counts down, and neither its fuel nor its monitor ends it. -/
theorem traverse_eq_walk (w : WalkContext H) (hfloor : floor ≤ c.startBlock) {left fuel : Nat}
    {parentFetches : Uint64} (hcount : parentFetches.val + left = w.maximumParentFetches.val)
    (hfuel : left < fuel) {bundle : B}
    (hbundle : ∀ cursor, refFromBundle bundle = .ok cursor → floor ≤ cursor.number)
    (above : List (BlockRef H × B)) (finality : Option (Option (Finality H))) :
    c.traverse m stuck w fuel parentFetches bundle above finality
      = c.walk w left bundle above finality := by
  induction fuel generalizing left parentFetches bundle above finality with
  | zero => exact absurd hfuel (Nat.not_lt_zero _)
  | succ fuel ih =>
    -- one round: the checks pass, and only a round above the start block goes on
    have hround :
        ∀ (f g : BlockRef H → Option (Option (Finality H)) → IndexM B H (WalkEnd B H)),
        (∀ cursor loaded, refFromBundle bundle = .ok cursor → c.startBlock < cursor.number →
          f cursor loaded = g cursor loaded) →
        (do
          let cursor ← refOf bundle
          m.inspect cursor.number
          match ← c.traverseStep m w cursor bundle above finality with
          | .inl ending => pure ending
          | .inr loaded => f cursor loaded : IndexM B H (WalkEnd B H))
        = (do
          let cursor ← refOf bundle
          match ← c.walkStep w cursor bundle above finality with
          | .inl ending => pure ending
          | .inr loaded => g cursor loaded) := by
      intro f g hfg
      refine check_congr fun cursor hcursor => ?_
      have hcursor := refOf_ok hcursor
      rw [hm.inspect (hbundle cursor hcursor), traverseStep_eq hm]
      refine bind_congr_of_sat (meter_serves (fun _ => 0) 0)
        ((walkStep_metered freeCost w (hbundle cursor hcursor) (Nat.zero_le 0) bundle above
          finality).mono ?_)
      rintro _ _ hends (ending | loaded) rfl
      · rfl
      · exact hfg cursor loaded hcursor (hends.2 loaded rfl)
    cases left with
    | zero =>
      refine hround _ _ fun cursor loaded _ _ => ?_
      have hspent : w.maximumParentFetches ≤ parentFetches := by
        rw [le_def]
        omega
      simp only [failIf, if_pos hspent]
      rfl
    | succ left =>
      refine hround _ _ fun cursor loaded hcursor hstart => ?_
      have hroom : ¬ w.maximumParentFetches ≤ parentFetches := by
        rw [le_def]
        omega
      have hadd : m.add parentFetches 1 = .ok (parentFetches + 1) := hm.add (by
        show parentFetches.val + 1 < _
        omega)
      simp only [failIf, if_neg hroom, traverseParent_eq hm, hadd]
      have hfetch : (c.fetchParent w cursor bundle).Sat (meter (fun _ => 0) floor (0 + 1)) _ 0 :=
        fetchParent_metered freeCost w cursor bundle (Nat.le_refl (0 + 1))
      refine bind_congr_of_sat (meter_serves (fun _ => 0) (0 + 1)) (hfetch.mono ?_)
      rintro _ _ ⟨-, hparent⟩ parent rfl
      refine ih (by omega) (by omega) (fun parentRef hparentRef => ?_) _ _
      exact parent_floor hcursor hparentRef (hparent parent rfl) hstart hfloor

omit hm [DecidableEq H] [ChainBundle B H] [ToString H] in
/-- The budget saturates. -/
theorem maximumAncestryFetches_val (gap : Uint64) : (c.maximumAncestryFetches gap).val
      = min (c.maxReorgDepth.val + gap.val) 18446744073709551615 := by
  have hroom : (maxUint64 - c.maxReorgDepth).val = 18446744073709551615 - c.maxReorgDepth.val :=
    sub_val_of_le (le_maxUint64 _)
  rw [maximumAncestryFetches]
  by_cases hfull : maxUint64 - c.maxReorgDepth < gap
  · rw [if_pos hfull, maxUint64_val, min_eq_right]
    rw [lt_def, hroom] at hfull
    omega
  · rw [if_neg hfull]
    rw [lt_def, hroom] at hfull
    rw [val_add_eq_of_add_lt (by omega), min_eq_left (by omega)]

end Loops

/-- What the traversal knows before it starts. -/
def walkContext (candidate tip : BlockRef H) (coverage : Option (CoreCoverage H))
    (known authoritativeHead : Bool) : WalkContext H where
  authoritativeHead := authoritativeHead
  tip := tip
  sparseTop := sparseTopOf coverage tip
  resolvingKnownSparseHead := (sparseTopOf coverage tip).isSome && known
  maximumParentFetches := c.maximumAncestryFetches
    (if candidate.number > tip.number then candidate.number - tip.number else 0)

/-- The parent fetches of a traversal: `maxReorgDepth` and the distance of the candidate
    above the tip, saturating. -/
def fetchBudget (candidate tip : BlockRef H) : Nat :=
  min (c.maxReorgDepth.val + (candidate.number.val - tip.number.val)) 18446744073709551615

omit [DecidableEq H] [ChainBundle B H] [ToString H] in
theorem walkContext_budget (candidate tip : BlockRef H) (coverage : Option (CoreCoverage H))
    (known authoritativeHead : Bool) :
    (c.walkContext candidate tip coverage known authoritativeHead).maximumParentFetches.val
      = c.fetchBudget candidate tip := by
  rw [walkContext, fetchBudget, maximumAncestryFetches_val]
  by_cases habove : candidate.number > tip.number
  · rw [if_pos habove, sub_val_of_le habove.le]
  · rw [if_neg habove, Nat.sub_eq_zero_of_le (not_lt.mp habove)]
    rfl

variable {m : Monitor} {candidate : B} {candidateRef tip : BlockRef H} {fuel : Nat}

/-- With fuel for its budget the loop is the walk. -/
theorem traverse_budget (hcandidate : refFromBundle candidate = .ok candidateRef)
    (hm : m.Lenient (min c.startBlock candidateRef.number)) (stuck : IndexError)
    (hfuel : c.fetchBudget candidateRef tip < fuel)
    (coverage : Option (CoreCoverage H)) (known authoritativeHead : Bool) :
    c.traverse m stuck (c.walkContext candidateRef tip coverage known authoritativeHead) fuel 0
        candidate [] none
      = c.walk (c.walkContext candidateRef tip coverage known authoritativeHead)
        (c.walkContext candidateRef tip coverage known authoritativeHead).maximumParentFetches.val
        candidate [] none := by
  rw [← c.walkContext_budget candidateRef tip coverage known authoritativeHead] at hfuel
  refine traverse_eq_walk hm stuck _ (min_le_left _ _) (zero_add _) hfuel
    (fun cursor hcursor => ?_) [] none
  cases hcandidate.symm.trans hcursor
  exact min_le_right _ _

/-- The traversal of the source is the modelled one under every lenient monitor. -/
theorem connectWith_eq (hcandidate : refFromBundle candidate = .ok candidateRef)
    (hm : m.Lenient (min c.startBlock candidateRef.number)) (stuck : IndexError)
    (hfuel : c.fetchBudget candidateRef tip < fuel)
    (coverage : Option (CoreCoverage H)) (known authoritativeHead : Bool) :
    c.connectWith m stuck fuel candidate candidateRef tip coverage known authoritativeHead
      = c.connect candidate candidateRef tip coverage known authoritativeHead := by
  have hloop := c.traverse_budget hcandidate hm stuck hfuel coverage known authoritativeHead
  rw [walkContext] at hloop
  simp only [connectWith, connect, forwardGap_eq hm, ancestryBudget_eq hm, check_pure_bind,
    ok_bind, hloop]

/-- The cost that counts the lookups of parents in the store. -/
def parentLookups : Request B H → Nat
  | .bundleByHash _ => 1
  | _ => 0

/-- One for every parent that is fetched from a block source. -/
def parentDownloads : Request B H → Nat
  | .source _ _ => 1
  | _ => 0

/-- **The ancestry traversal is bounded.**  Whatever the repository and the block sources
    answer, and for all heights, start blocks and depths:

    * with fuel for its budget of parent fetches the loop never runs out of fuel;
    * it is the same program with arithmetic that stops at a wrap and with heights below
      the start block and the candidate forbidden;
    * no run looks up or fetches more parents than the budget, or asks for a canonical
      block below the start block and the candidate. -/
theorem ancestry_bounded (c : Canonicalizer) {candidate : B} {candidateRef : BlockRef H}
    (hcandidate : refFromBundle candidate = .ok candidateRef) (tip : BlockRef H)
    (coverage : Option (CoreCoverage H)) (known authoritativeHead : Bool) (stuck : IndexError)
    {fuel : Nat} (hfuel : c.fetchBudget candidateRef tip < fuel) :
    (∀ m, m = Monitor.wrapping ∨ m
      = Monitor.strict (min c.startBlock candidateRef.number) stuck →
      c.connectWith m stuck fuel candidate candidateRef tip coverage known authoritativeHead
          = c.connect candidate candidateRef tip coverage known authoritativeHead
        ∧ c.resolvesSparseHead m (rangesOf coverage) candidateRef tip
          = .ok (c.shouldResolveSparseHead (rangesOf coverage) candidateRef tip))
    ∧ ∀ cost : Request B H → Nat, cost = parentLookups ∨ cost = parentDownloads →
      (c.traverse .wrapping stuck
        (c.walkContext candidateRef tip coverage known authoritativeHead) fuel 0 candidate
          [] none).Sat
        (meter cost (min c.startBlock candidateRef.number) (c.fetchBudget candidateRef tip))
        (fun _ spent => spent ≤ c.fetchBudget candidateRef tip) 0 := by
  constructor
  · intro m hm
    have hlenient : m.Lenient (min c.startBlock candidateRef.number) := by
      rcases hm with rfl | rfl
      · exact Monitor.wrapping_lenient _
      · exact Monitor.strict_lenient _ _
    exact ⟨c.connectWith_eq hcandidate hlenient stuck hfuel coverage known authoritativeHead,
      resolvesSparseHead_eq hlenient _ _ _⟩
  · intro cost hcost
    have hcost : FetchCost cost := by
      rcases hcost with rfl | rfl
      · exact ⟨fun _ => rfl, rfl, fun _ _ _ => Nat.le_refl 1⟩
      · exact ⟨fun _ => rfl, rfl, fun _ _ _ => Nat.le_refl 1⟩
    rw [c.traverse_budget hcandidate (Monitor.wrapping_lenient _) stuck hfuel]
    refine walk_metered hcost _ (min_le_left _ _) _ (fun cursor hcursor => ?_) _ _ ?_
    · cases hcandidate.symm.trans hcursor
      exact min_le_right _ _
    · rw [zero_add, walkContext_budget]

/-- A head three blocks above the tip may fetch 131 parents. -/
theorem ancestry_bounded_gap : plainCanonicalizer.fetchBudget block3.ref block0.ref = 131
      ∧ ∀ stuck : IndexError,
        plainCanonicalizer.connectWith (Monitor.strict 0 stuck) stuck 132 block3
          block3.ref block0.ref
            none false true
          = plainCanonicalizer.connect block3 block3.ref block0.ref none false true := by
  have hbudget : plainCanonicalizer.fetchBudget block3.ref block0.ref = 131 := by decide
  refine ⟨hbudget, fun stuck => ?_⟩
  have href : refFromBundle block3 = .ok block3.ref := rfl
  have hfuel : plainCanonicalizer.fetchBudget block3.ref block0.ref < 132 := by
    rw [hbudget]
    decide
  have hbounded := ancestry_bounded plainCanonicalizer href block0.ref none false true stuck hfuel
  exact (hbounded.1 _ (.inr rfl)).1

end Canonicalizer

end Indexer
