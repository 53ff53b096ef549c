import Etherview.IndexerApply
import Etherview.StoreFinality

/-! # The live lane and the backfill lanes

    One live lane runs the operations of the canonicalizer, one at a time; the other
    lanes commit segments and append journal entries between any two of its requests.

    * `OtherCall.grows` — what the other lanes do between two requests of the live lane;
    * `LiveOp.sat` — every call of the live lane is disciplined, whatever the others
      and the block source do;
    * `lane_safe` — an invariant that disciplined calls keep holds in every state that
      the lanes reach. -/

namespace Indexer

open Store Interaction Transact IntervalSet Prog

variable {B H : Type} [DecidableEq H] [ChainBundle B H] [ToString H]

/-! ## Lanes -/

/-- What the live lane runs. -/
inductive LiveOp (B H : Type) where
  | apply (candidate : B)
  | applyHead (candidate : B)
  | refresh (candidate : B) (options : RefreshOptions)
  | updateFinality (safe finalized : Option (BlockRef H))
  | commitSegment (bundles : List B)

/-- The program of an operation, with its result dropped. -/
def LiveOp.program (c : Canonicalizer) : LiveOp B H → IndexM B H Unit
  | .apply candidate => do
      let _ ← c.applyHistorical candidate
  | .applyHead candidate => do
      let _ ← c.applyHead candidate
  | .refresh candidate options => do
      let _ ← c.refresh candidate options
  | .updateFinality safe finalized => Canonicalizer.updateFinality safe finalized
  | .commitSegment bundles =>
    callRepository (.commitCanonicalSegment bundles) .ofStore

/-- The calls that another lane makes. -/
inductive OtherCall : Call B H → Prop where
  | commit (bundles : List B) : OtherCall (.commitCanonicalSegment bundles)
  | journal (entry : JournalEntry H) : OtherCall (.appendJournal entry)

/-- The programs of the live lane. -/
def liveOps (c : Canonicalizer) (p : IndexM B H Unit) : Prop :=
  ∃ op : LiveOp B H, p = op.program c

section World

variable (allowed : Call B H → MemoryChain B H → Prop)

/-- A call that succeeds only where it is allowed. -/
def Admitted (call : Call B H) (s : MemoryChain B H) : Prop :=
  (call.exec.run s).1.isOk = true → allowed call s

/-- A step of another lane. -/
def otherLanes (s t : MemoryChain B H) : Prop :=
  ∃ call, OtherCall call ∧ Admitted allowed call s ∧ t = call.next s

/-- The live lane counts on `Grows` and owes disciplined calls. -/
def laneWorld : World (interface B H) (MemoryChain B H) where
  serves := fun request s answer t => memoryServes request s answer t ∧
    ∀ call, request = .call call → Admitted allowed call s
  rely := Grows
  guar
    | .call call, s => call.Disciplined s
    | _, _ => True
  rely_refl := Grows.refl
  rely_trans := Grows.trans

/-- The state `t` is reached from `s` by the live lane and the other lanes in a run
    in which every successful call is allowed. -/
def ReachedWhere (c : Canonicalizer) (s t : MemoryChain B H) : Prop :=
  ∃ lane, Reaches (laneWorld allowed) (otherLanes allowed) (liveOps c) s lane t

/-- The state `t` is reached by some run. -/
abbrev Reached (c : Canonicalizer) (s t : MemoryChain B H) : Prop :=
  ReachedWhere (fun _ _ => True) c s t

/-- The world with another lane is a world of the repository. -/
theorem laneWorld_repo : RepoWorld (laneWorld allowed) where
  serves := fun h => h.1
  grows := id
  reads := fun request s hread => by
    cases request with
    | call call => exact absurd rfl (hread call)
    | _ => trivial
  calls := fun _ _ _ h => h

end World

/-! ## The other lanes only add -/

/-- A call of another lane only lets the chain grow. -/
theorem OtherCall.grows {call : Call B H} (hcall : OtherCall call) (s : MemoryChain B H) :
    Grows s (call.next s) := by
  intro hs
  have hnext := call.wellFormed hs
  rw [Call.next] at hnext ⊢
  rcases hrun : call.exec.run s with ⟨err | u, t⟩
  · have ht := Call.atomic hs.unconfigured hrun
    subst ht
    exact Grows.refl _ hs
  · rw [hrun] at hnext
    cases hcall with
    | commit bundles =>
      obtain ⟨result, hsegment, rfl⟩ := Tx.run_map_ok hrun
      obtain ⟨items, start, -, heff⟩ := commitCanonicalSegment_effect hs hsegment
      refine ⟨hnext, fun {n r} hr => ?_, heff.start_eq, heff.finality_eq⟩
      refine hs.refAt_of_lookup hnext hr ?_
      exact commitCanonicalSegment_preserved hs hsegment n n (le_refl n) _ (hs.refAt_some hr).2
    | journal entry =>
      obtain ⟨-, -, -, -, rfl⟩ := appendJournal_run.mp hrun
      exact ⟨hnext, id, rfl, rfl⟩

/-! ## The live lane is disciplined -/

section Live

variable {W : World (interface B H) (MemoryChain B H)} (hW : RepoWorld W)
  {s : MemoryChain B H} (hs : WellFormed s)
include hW hs

/-- Without a configured start the bundles are committed one by one. -/
theorem commitEach_sat (items : List (BlockRef H × B)) (hstart : s.configuredStart = none) :
    (Canonicalizer.commitEach items).Sat W (fun _ _ => True) s := by
  induction items generalizing s with
  | nil => trivial
  | cons item rest ih =>
    obtain ⟨reference, bundle⟩ := item
    refine sat_bind.mpr (call_sat hW hs (fun u hu _ => (hW.start_eq hs hu).trans hstart) ?_
      fun _ _ _ => trivial)
    intro u t hu hwf hrun
    refine ih (commitCanonical_wellFormed hwf hrun) ?_
    have hkeep : t.configuredStart = u.configuredStart := by
      obtain ⟨copy, r, -, -, -, -, ⟨-, rfl⟩ | ⟨-, -, rfl⟩⟩ :=
        commitCanonical_run.mp hrun
      · rfl
      · rfl
    rw [hkeep, hW.start_eq hs hu]
    exact hstart

/-- Every commit of the canonicalizer is disciplined. -/
theorem commitCanonicalBundles_sat (items : List (BlockRef H × B)) :
    (Canonicalizer.commitCanonicalBundles items).Sat W (fun _ _ => True) s := by
  cases items with
  | nil => trivial
  | cons item rest =>
    refine sat_then (readCoverage_ends hW hs _) (fun coverage t ht hread => ?_) fun _ _ _ => trivial
    have ht' := hW.wellFormed hs ht
    cases coverage with
    | some coverage =>
      exact call_sat hW ht' (fun _ _ _ => trivial) (fun _ _ _ _ _ => trivial) fun _ _ _ => trivial
    | none => exact commitEach_sat hW ht' _ (Option.map_eq_none_iff.mp hread.symm)

/-- Every call that an application makes is disciplined. -/
theorem apply_disciplined (c : Canonicalizer) (bundle : B) (authoritativeHead : Bool) :
    (c.apply bundle authoritativeHead).Sat W (fun _ _ => True) s := by
  refine c.apply_sat hW hs (fun _ _ _ => trivial) fun candidate t _ ht =>
    ⟨fun _ _ _ => trivial, fun _ _ _ _ _ _ _ => trivial, fun _ _ _ _ _ _ _ _ _ => trivial, ?_⟩
  intro items u result wrap hu _
  refine sat_bind.mpr (sat_mapError.mpr ?_)
  refine (commitCanonicalBundles_sat hW (hW.wellFormed (hW.wellFormed hs ht) hu) items).mono ?_
  rintro (err | value) v -
  · trivial
  · trivial

/-- Every call that a refresh makes is disciplined. -/
theorem refresh_disciplined (c : Canonicalizer) (bundle : B) (options : RefreshOptions) :
    (c.refresh bundle options).Sat W (fun _ _ => True) s := by
  refine sat_check (fun _ _ => ?_) fun _ => trivial
  refine sat_check (fun _ _ => ?_) fun _ => trivial
  refine sat_check (fun _ _ => ?_) fun _ => trivial
  refine sat_then (canonicalBlock_ends hW hs _ _) (fun _ t ht _ => ?_) fun _ _ _ => trivial
  have ht' := hW.wellFormed hs ht
  refine sat_check (fun _ _ => ?_) fun _ => trivial
  refine sat_check (fun _ _ => ?_) fun _ => trivial
  refine sat_then (canonicalTip_ends hW ht' _) (fun _ u hu _ => ?_) fun _ _ _ => trivial
  refine sat_check (fun _ _ => ?_) fun _ => trivial
  refine sat_bind.mpr (call_sat hW (hW.wellFormed ht' hu) (fun _ _ _ => trivial) ?_ ?_)
  · intro _ _ _ _ _
    trivial
  · intro _ _ _
    trivial

/-! ### Finality

    The reads of `UpdateFinality` cannot fail on a well-formed chain, so its errors are
    those of its own checks until it makes its call. -/

/-- The state has moved along `rely`, and an error is not a finality regression. -/
def Calm {α : Type} (W : World (interface B H) (MemoryChain B H)) (s : MemoryChain B H)
    (facts : α → MemoryChain B H → Prop) : Except IndexError α → MemoryChain B H → Prop
  | .ok value, t => W.rely s t ∧ facts value t
  | .error err, t => W.rely s t ∧ err.cause ≠ .store .finalityRegress

section

omit hW hs [DecidableEq H] [ChainBundle B H] [ToString H]

variable {α β : Type} {f : α → IndexM B H β} {facts : α → MemoryChain B H → Prop}

theorem calm_bind {p : IndexM B H α} {facts' : β → MemoryChain B H → Prop}
    (hp : p.Sat W (Calm W s facts) s)
    (hok : ∀ value t, W.rely s t → facts value t → (f value).Sat W (Calm W t facts') t) :
    (p >>= f).Sat W (Calm W s facts') s := by
  refine sat_bind.mpr (hp.mono ?_)
  rintro (err | value) t ⟨hrely, h⟩
  · exact ⟨hrely, h⟩
  · refine (hok value t hrely h).mono ?_
    rintro (err | value) u ⟨hrely', h'⟩
    · exact ⟨W.rely_trans hrely hrely', h'⟩
    · exact ⟨W.rely_trans hrely hrely', h'⟩

variable {err : IndexError}

/-- A check that fails otherwise is calm. -/
theorem calm_failIf {c : Prop} [Decidable c]
    {f : Unit → IndexM B H β} {facts : β → MemoryChain B H → Prop}
    (hcause : err.cause ≠ .store .finalityRegress)
    (hok : ¬ c → (f ()).Sat W (Calm W s facts) s) :
    ((liftM (failIf c err) : IndexM B H Unit) >>= f).Sat W (Calm W s facts) s := by
  refine sat_liftM_bind.mpr ?_
  unfold failIf
  split_ifs with h
  · exact ⟨W.rely_refl s, hcause⟩
  · exact hok h

/-- A value that is missing otherwise is calm. -/
theorem calm_require {x : Option α}
    {facts : β → MemoryChain B H → Prop} (hcause : err.cause ≠ .store .finalityRegress)
    (hok : ∀ value, x = some value → (f value).Sat W (Calm W s facts) s) :
    ((liftM (require x err) : IndexM B H α) >>= f).Sat W (Calm W s facts) s := by
  refine sat_liftM_bind.mpr ?_
  cases x with
  | none => exact ⟨W.rely_refl s, hcause⟩
  | some value => exact hok value rfl

theorem calm_pure {value : α}
    (h : facts value s) : (pure value : IndexM B H α).Sat W (Calm W s facts) s :=
  ⟨W.rely_refl s, h⟩

end

theorem canonicalBlock_calm (number : Uint64) (context : String) :
    (canonicalBlock number context : IndexM B H _).Sat W
      (Calm W s fun answer t => answer = t.refAt number) s := by
  refine sat_query.mpr fun u hu => ⟨hW.reads _ u (fun _ h => by cases h), ?_⟩
  intro answer t hserve
  obtain ⟨rfl, rfl⟩ := hW.serves hserve
  rw [(hW.wellFormed hs hu).canonicalRef_eq]
  exact ⟨hu, rfl⟩

theorem canonicalTip_calm (context : String) :
    (canonicalTip context : IndexM B H _).Sat W (Calm W s fun answer t => answer = t.tip) s := by
  refine sat_query.mpr fun u hu => ⟨hW.reads _ u (fun _ h => by cases h), ?_⟩
  intro answer t hserve
  obtain ⟨rfl, rfl⟩ := hW.serves hserve
  rw [(hW.wellFormed hs hu).memoryTip_eq]
  exact ⟨hu, rfl⟩

/-- A marker resolved to the canonical block of its height and hash. -/
def Resolved (t : MemoryChain B H) (requested found : Option (BlockRef H)) : Prop :=
  (∀ q ∈ found, t.refAt q.number = some q)
    ∧ ∀ r ∈ requested, ∃ q ∈ found, q.number = r.number ∧ q.hash = r.hash

theorem Resolved.later {t : MemoryChain B H} {requested found : Option (BlockRef H)}
    (h : Resolved s requested found) (ht : W.rely s t) : Resolved t requested found :=
  ⟨fun q hq => hW.refAt hs ht (h.1 q hq), h.2⟩

/-- Resolving a marker is calm. -/
theorem resolveMarker_calm (tip : BlockRef H) (name : String) (requested : Option (BlockRef H)) :
    (Canonicalizer.resolveMarker tip name requested : IndexM B H _).Sat W
      (Calm W s fun found t => Resolved t requested found) s := by
  cases requested with
  | none =>
    refine calm_pure ⟨fun q hq => ?_, fun r hr => ?_⟩
    · cases hq
    · cases hr
  | some requested =>
    refine calm_failIf (fun h => by cases h) fun _ => ?_
    refine calm_bind (canonicalBlock_calm hW hs _ _) fun answer t ht hread => ?_
    refine calm_require (fun h => by cases h) fun canonical hcanonical => ?_
    obtain ⟨hsome, hhash⟩ := Option.filter_eq_some_iff.mp hcanonical
    rw [hread] at hsome
    have hnumber := ((hW.wellFormed hs ht).refAt_some hsome).1
    refine calm_pure ⟨fun q hq => ?_, fun r hr => ?_⟩
    · cases hq
      rw [hnumber]
      exact hsome
    · cases hr
      exact ⟨canonical, rfl, hnumber, of_decide_eq_true hhash⟩

theorem ancestryLoop_calm (floor : BlockRef H) (fuel : Nat) (child : BlockRef H) :
    (Canonicalizer.ancestryLoop floor fuel child : IndexM B H _).Sat W
      (Calm W s fun _ _ => True) s := by
  induction fuel generalizing child s with
  | zero => exact calm_pure trivial
  | succ fuel ih =>
    rw [Canonicalizer.ancestryLoop]
    split_ifs
    · refine calm_bind (canonicalBlock_calm hW hs _ _) fun answer t ht _ => ?_
      refine calm_require (fun h => by cases h) fun parent _ => ?_
      exact calm_failIf (fun h => by cases h) fun _ => ih (hW.wellFormed hs ht) parent
    · exact calm_pure trivial

/-- Checking the finality floor is calm. -/
theorem checkFloor_calm (tip : BlockRef H) (floor : Option (BlockRef H)) :
    (Canonicalizer.checkFloor tip floor : IndexM B H _).Sat W (Calm W s fun _ _ => True) s := by
  cases floor with
  | none => exact calm_pure trivial
  | some floor =>
    refine calm_bind (ancestryLoop_calm hW hs floor _ tip) fun child t _ _ => ?_
    refine sat_liftM.mpr ?_
    unfold failIf
    split_ifs
    · exact ⟨W.rely_refl t, fun h => by cases h⟩
    · exact ⟨W.rely_refl t, trivial⟩

/-- **The rule for `UpdateFinality`.**  Its call is made with resolved markers, and an
    earlier error is not a finality regression. -/
theorem updateFinality_sat {safe finalized : Option (BlockRef H)}
    {post : Except IndexError Unit → MemoryChain B H → Prop}
    (herr : ∀ err t, W.rely s t → err.cause ≠ .store .finalityRegress → post (.error err) t)
    (hcall : ∀ markers t answer u, W.rely s t → WellFormed t →
      Resolved t safe markers.safe → Resolved t finalized markers.finalized →
      (Store.updateFinality markers).run t = (answer, u) →
      post (answer.mapError .ofStore) u) :
    (Canonicalizer.updateFinality safe finalized : IndexM B H Unit).Sat W post s := by
  have hthen : ∀ {α : Type} {p : IndexM B H α} {f : α → IndexM B H Unit}
      {facts : α → MemoryChain B H → Prop} {t : MemoryChain B H}, W.rely s t →
      p.Sat W (Calm W t facts) t →
      (∀ value u, W.rely s u → W.rely t u → facts value u → (f value).Sat W post u) →
      (p >>= f).Sat W post t := by
    intro α p f facts t hst hp hf
    refine sat_bind.mpr (hp.mono ?_)
    rintro (err | value) u ⟨htu, h⟩
    · exact herr err u (W.rely_trans hst htu) h
    · exact hf value u (W.rely_trans hst htu) htu h
  refine hthen (W.rely_refl s) (canonicalTip_calm hW hs _) fun tip t hst _ _ => ?_
  have ht := hW.wellFormed hs hst
  refine sat_liftM_bind.mpr ?_
  cases tip with
  | none =>
    refine herr _ t hst ?_
    intro h
    cases h
  | some tip =>
    refine hthen hst (resolveMarker_calm hW ht tip "safe" safe) fun safe' u hsu _ hsafe => ?_
    have hu := hW.wellFormed hs hsu
    refine hthen hsu (resolveMarker_calm hW hu tip "finalized" finalized)
      fun finalized' v hsv huv hfinal => ?_
    have hv := hW.wellFormed hs hsv
    refine hthen hsv (checkFloor_calm hW hv tip _) fun _ w hsw hvw _ => ?_
    refine sat_query.mpr fun x hwx => ?_
    have hsx := W.rely_trans hsw hwx
    have hx := hW.wellFormed hs hsx
    have hvx := W.rely_trans hvw hwx
    refine ⟨hW.calls _ x hx trivial, fun answer y hserve => ?_⟩
    exact hcall _ x answer y hsx hx (Resolved.later hW hu hsafe (W.rely_trans huv hvx))
      (Resolved.later hW hv hfinal hvx) (hW.serves hserve)

/-- **The live lane is disciplined.** -/
theorem LiveOp.sat (c : Canonicalizer) (op : LiveOp B H) :
    (op.program c).Sat W (fun _ _ => True) s := by
  cases op with
  | apply candidate =>
    refine sat_bind.mpr ((apply_disciplined hW hs c candidate false).mono ?_)
    rintro (err | value) t -
    · trivial
    · trivial
  | applyHead candidate =>
    refine sat_bind.mpr ((apply_disciplined hW hs c candidate true).mono ?_)
    rintro (err | value) t -
    · trivial
    · trivial
  | refresh candidate options =>
    refine sat_bind.mpr ((refresh_disciplined hW hs c candidate options).mono ?_)
    rintro (err | value) t -
    · trivial
    · trivial
  | updateFinality safe finalized =>
    exact updateFinality_sat hW hs (fun _ _ _ _ => trivial) fun _ _ _ _ _ _ _ _ _ => trivial
  | commitSegment bundles =>
    exact call_sat hW hs (fun _ _ _ => trivial) (fun _ _ _ _ _ => trivial) fun _ _ _ => trivial

end Live

/-! ## Invariants of every interleaving -/

variable {s t : MemoryChain B H}

/-- The store answers without a change, or as a call does. -/
theorem memoryServes_next {request : Request B H}
    {answer : Answer request} (h : memoryServes request s answer t) :
    t = s ∨ ∃ call, request = .call call ∧ t = call.next s := by
  cases request with
  | call call =>
    refine .inr ⟨call, rfl, ?_⟩
    have hrun : call.exec.run s = (answer, t) := h
    rw [Call.next, hrun]
  | source _ _ | sourceHead | sourceBlock _ | sourceFinality => exact .inl h
  | _ => exact .inl h.1

variable {allowed : Call B H → MemoryChain B H → Prop}

/-- **The lane rule.**  An invariant that every disciplined and admitted call keeps
    holds in every reached state. -/
theorem lane_safe {inv : MemoryChain B H → Prop}
    {c : Canonicalizer} (hwf : ∀ s, inv s → WellFormed s)
    (hcall : ∀ (call : Call B H) s, inv s → call.Disciplined s → Admitted allowed call s →
      inv (call.next s))
    (hs : inv s) (h : ReachedWhere allowed c s t) : inv t := by
  obtain ⟨lane, h⟩ := h
  refine interleaving_safe ?_ ?_ ?_ hs h
  · rintro s _ hinv ⟨call, hother, hadmitted, rfl⟩
    refine ⟨hcall call s hinv ?_ hadmitted, hother.grows s⟩
    cases hother <;> trivial
  · intro request s answer t hinv hguar hserve
    rcases memoryServes_next hserve.1 with rfl | ⟨call, rfl, rfl⟩
    · exact hinv
    · exact hcall call s hinv hguar (hserve.2 call rfl)
  · rintro _ s ⟨op, rfl⟩ hinv
    exact LiveOp.sat (laneWorld_repo allowed) (hwf s hinv) c op

/-- Any program leaves the chain well formed. -/
theorem wellFormed_runs {α : Type} {p : IndexM B H α}
    {out : Except IndexError α} (hs : WellFormed s) (hrun : p.Runs memoryServes s out t) :
    WellFormed t := by
  induction hrun with
  | done value s => exact hs
  | fail err s => exact hs
  | ask hserve _ ih =>
    rcases memoryServes_next hserve with rfl | ⟨call, -, rfl⟩
    · exact ih hs
    · exact ih (call.wellFormed hs)

/-! ## Concrete runs -/

/-- The repository as a function, with a block source that knows no block. -/
def memoryServe : (request : Request B H) → MemoryChain B H → Answer request × MemoryChain B H
  | .canonicalTip, s => (memoryTip s, s)
  | .canonicalBlock number, s => (memoryCanonicalRef s number, s)
  | .coverage, s => (Store.coverage s, s)
  | .finality, s => (.ok s.finality, s)
  | .bundleByHash hash, s => (Store.bundleByHash s hash, s)
  | .call call, s => call.exec.run s
  | .source _ _, s => (.ok none, s)
  | .sourceHead, s => (.error "no head", s)
  | .sourceBlock _, s => (.error "no block", s)
  | .sourceFinality, s => (.ok (none, none), s)

theorem memoryServes_serve (request : Request B H) (s : MemoryChain B H) :
    memoryServes request s (memoryServe request s).1 (memoryServe request s).2 := by
  cases request with
  | call call => rfl
  | source _ _ | sourceHead | sourceBlock _ | sourceFinality => rfl
  | _ => exact ⟨rfl, rfl⟩

/-- It serves every request that is accepted under the condition of a run. -/
theorem laneWorld_serve {accept : Request B H → MemoryChain B H → Bool}
    (haccept : ∀ request s, accept request s = true → ∀ call, request = .call call →
      allowed call s) (request : Request B H) (s : MemoryChain B H)
    (h : accept request s = true) :
    (laneWorld allowed).serves request s (memoryServe request s).1 (memoryServe request s).2 :=
  ⟨memoryServes_serve request s, fun call hcall _ => haccept request s h call hcall⟩

/-- A canonicalizer with the default depth. -/
def plainCanonicalizer : Canonicalizer where
  chainID := "1"
  startBlock := 0
  configuredReorgDepth := 0
  hasSource := false
  hasHeadSource := false

end Indexer
