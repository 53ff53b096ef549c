import Mathlib.Logic.Relation
import Mathlib.Tactic.Common

/-! # Programs that talk to a shared state

    A `Prog` asks requests and continues with their answers; it ends with a value or
    an error.  What a request does to the state is a relation, so a service may be
    nondeterministic.

    * `Prog.Runs` is the undisturbed execution.
    * `Prog.Sat` is a rely/guarantee judgement: between two requests the state may
      move along `rely`, and each request is made in a state that meets `guar`.
      `sat_bind` composes judgements, `Sat.runs` applies them to executions.
    * `World.metered` turns a judgement into a bound on the requests of every run,
      `World.traced` into a statement about their log.
    * `interleaving_safe` is the rule for one lane of programs and an environment
      that take steps in any order, and `crash_safe` is the one for any number of lanes,
      each of which may stop at any point, and which may also all be stopped at once. -/

namespace Interaction

open Function

/-- The requests of a program and the type of their answers. -/
structure Interface where
  Request : Type
  Answer : Request → Type

/-- A program over an interface. -/
inductive Prog (I : Interface) (ε α : Type) where
  | done (value : α)
  | fail (err : ε)
  | ask (request : I.Request) (next : I.Answer request → Prog I ε α)

variable {I : Interface} {ε α β γ σ : Type}

namespace Prog

/-- Sequencing: errors end the program. -/
def bind : Prog I ε α → (α → Prog I ε β) → Prog I ε β
  | done value, f => f value
  | fail err, _ => fail err
  | ask request next, f => ask request fun answer => (next answer).bind f

instance : Monad (Prog I ε) where
  pure := done
  bind := bind

/-- A pure step that may fail. -/
def lift : Except ε α → Prog I ε α
  | .ok value => done value
  | .error err => fail err

instance : MonadLift (Except ε) (Prog I ε) where
  monadLift := lift

/-- The program that asks and returns the answer. -/
def request (request : I.Request) : Prog I ε (I.Answer request) := ask request done

/-- A request whose answer is a value or an error of the service. -/
def query {δ : Type} (request : I.Request) (read : I.Answer request → Except δ α)
    (wrap : δ → ε) : Prog I ε α :=
  ask request fun answer => lift ((read answer).mapError wrap)

/-- Rewrite the error a program ends with. -/
def mapError {δ : Type} (f : ε → δ) : Prog I ε α → Prog I δ α
  | done value => done value
  | fail err => fail (f err)
  | ask request next => ask request fun answer => (next answer).mapError f

/-- Run a program to its end and go on with what came of it. -/
def attempt {δ : Type} : Prog I ε α → Prog I δ (Except ε α)
  | done value => done (.ok value)
  | fail err => done (.error err)
  | ask request next => ask request fun answer => (next answer).attempt

/-- Run a program and a last step after it, however the program ends. -/
def always (p : Prog I ε α) (last : Prog I ε Unit) : Prog I ε α :=
  p.attempt.bind fun out => last.bind fun _ => lift out

/-- Run a program over another interface, whose requests are programs. -/
def handle {J : Interface} {δ : Type}
    (handler : (request : J.Request) → Prog I ε (J.Answer request)) :
    Prog J δ α → Prog I ε (Except δ α)
  | done value => done (.ok value)
  | fail err => done (.error err)
  | ask request next => (handler request).bind fun answer => (next answer).handle handler

/-! ## Undisturbed executions -/

/-- A program runs to its end without anyone else touching the state. -/
inductive Runs (serves : (request : I.Request) → σ → I.Answer request → σ → Prop) :
    Prog I ε α → σ → Except ε α → σ → Prop where
  | done (value : α) (s : σ) : Runs serves (done value) s (.ok value) s
  | fail (err : ε) (s : σ) : Runs serves (fail err) s (.error err) s
  | ask {request : I.Request} {next : I.Answer request → Prog I ε α} {s t u : σ}
      {answer : I.Answer request} {out : Except ε α} (hserve : serves request s answer t)
      (hrest : Runs serves (next answer) t out u) : Runs serves (ask request next) s out u

end Prog

/-! ## Judgements -/

/-- What a program may count on and what it owes. -/
structure World (I : Interface) (σ : Type) where
  serves : (request : I.Request) → σ → I.Answer request → σ → Prop
  rely : σ → σ → Prop
  guar : I.Request → σ → Prop
  rely_refl : ∀ s, rely s s
  rely_trans : ∀ {s t u}, rely s t → rely t u → rely s u

/-- A world in which nobody else moves and nothing is owed. -/
def World.quiet (serves : (request : I.Request) → σ → I.Answer request → σ → Prop) :
    World I σ where
  serves := serves
  rely := Eq
  guar := fun _ _ => True
  rely_refl := fun _ => rfl
  rely_trans := Eq.trans

/-- A world that only counts what is asked, up to a limit; every answer is possible. -/
def World.metered (cost : I.Request → Nat) (allowed : I.Request → Prop) (limit : Nat) :
    World I Nat where
  serves := fun request spent _ spent' => spent' = spent + cost request
  rely := Eq
  guar := fun request spent => allowed request ∧ spent + cost request ≤ limit
  rely_refl := fun _ => rfl
  rely_trans := Eq.trans

/-- A request with its answer. -/
abbrev Event (I : Interface) := (request : I.Request) × I.Answer request

/-- A world that only writes down what is asked and answered. -/
def World.traced (allowed : (request : I.Request) → I.Answer request → Prop) :
    World I (List (Event I)) where
  serves := fun request log answer log' => allowed request answer
    ∧ log' = log ++ [⟨request, answer⟩]
  rely := Eq
  guar := fun _ _ => True
  rely_refl := fun _ => rfl
  rely_trans := Eq.trans

namespace Prog

variable {W : World I σ}

/-- The program meets its guarantees from a state on and ends in `post`. -/
def Sat (W : World I σ) (post : Except ε α → σ → Prop) : Prog I ε α → σ → Prop
  | done value, s => post (.ok value) s
  | fail err, s => post (.error err) s
  | ask request next, s => ∀ s', W.rely s s' → W.guar request s' ∧
      ∀ answer t, W.serves request s' answer t → (next answer).Sat W post t

/-- What follows a program: the rest after a value, the postcondition after an
    error. -/
def after (W : World I σ) (f : α → Prog I ε β) (post : Except ε β → σ → Prop) :
    Except ε α → σ → Prop
  | .ok value, s => (f value).Sat W post s
  | .error err, s => post (.error err) s

variable {p : Prog I ε α} {f : α → Prog I ε β} {s : σ}

/-- **Sequencing.** -/
theorem sat_bind {post : Except ε β → σ → Prop} :
    (p >>= f).Sat W post s ↔ p.Sat W (after W f post) s := by
  induction p generalizing s with
  | done value => exact Iff.rfl
  | fail err => exact Iff.rfl
  | ask request next ih =>
    constructor
    · intro h s' hrely
      exact ⟨(h s' hrely).1, fun answer t hserve =>
        (ih answer).mp ((h s' hrely).2 answer t hserve)⟩
    · intro h s' hrely
      exact ⟨(h s' hrely).1, fun answer t hserve =>
        (ih answer).mpr ((h s' hrely).2 answer t hserve)⟩

variable {post post' : Except ε α → σ → Prop}

theorem Sat.mono
    (h : p.Sat W post s) (hpost : ∀ out t, post out t → post' out t) : p.Sat W post' s := by
  induction p generalizing s with
  | done value => exact hpost _ _ h
  | fail err => exact hpost _ _ h
  | ask request next ih =>
    intro s' hrely
    exact ⟨(h s' hrely).1, fun answer t hserve => ih answer ((h s' hrely).2 answer t hserve)⟩

/-- Two postconditions at once. -/
theorem Sat.and (h : p.Sat W post s) (h' : p.Sat W post' s) :
    p.Sat W (fun out t => post out t ∧ post' out t) s := by
  induction p generalizing s with
  | done value => exact ⟨h, h'⟩
  | fail err => exact ⟨h, h'⟩
  | ask request next ih =>
    intro s' hrely
    exact ⟨(h s' hrely).1, fun answer t hserve =>
      ih answer ((h s' hrely).2 answer t hserve) ((h' s' hrely).2 answer t hserve)⟩

variable {post : Except ε α → σ → Prop} {value : α}

variable {x : Except ε α}

theorem sat_liftM : (liftM x : Prog I ε α).Sat W post s ↔ post x s := by
  cases x with
  | ok value => exact Iff.rfl
  | error err => exact Iff.rfl

/-- A pure step in front: only a value goes on. -/
theorem sat_liftM_bind {post : Except ε β → σ → Prop} :
    ((liftM x : Prog I ε α) >>= f).Sat W post s ↔ after W f post x s := by
  rw [sat_bind, sat_liftM]

variable {δ : Type}

/-- Changing the errors changes the postcondition. -/
theorem sat_mapError {f : ε → δ} {post : Except δ α → σ → Prop} :
    (p.mapError f).Sat W post s ↔ p.Sat W (fun out t => post (out.mapError f) t) s := by
  induction p generalizing s with
  | done value => exact Iff.rfl
  | fail err => exact Iff.rfl
  | ask request next ih =>
    refine forall₂_congr fun s' _ => and_congr_right fun _ => forall₃_congr fun answer t _ => ?_
    exact ih answer

/-- Catching the errors changes the postcondition. -/
theorem sat_attempt {post : Except δ (Except ε α) → σ → Prop} :
    (p.attempt : Prog I δ (Except ε α)).Sat W post s
      ↔ p.Sat W (fun out t => post (.ok out) t) s := by
  induction p generalizing s with
  | done value => exact Iff.rfl
  | fail err => exact Iff.rfl
  | ask request next ih =>
    refine forall₂_congr fun s' _ => and_congr_right fun _ => forall₃_congr fun answer t _ => ?_
    exact ih answer

/-- A program and a last step that does not fail. -/
theorem sat_always {last : Prog I ε Unit}
    (h : p.Sat W (fun out t => last.Sat W (fun ended u => ended = .ok () ∧ post out u) t) s) :
    (p.always last).Sat W post s := by
  refine sat_bind.mpr (sat_attempt.mpr (h.mono ?_))
  intro out t hlast
  refine sat_bind.mpr (hlast.mono ?_)
  rintro ended u ⟨rfl, hpost⟩
  exact sat_liftM.mpr hpost

/-- Wherever the program starts with a property of the state, it ends with it. -/
def Keeps (W : World I σ) (kept : σ → Prop) (p : Prog I ε α) : Prop :=
  ∀ s, kept s → p.Sat W (fun _ t => kept t) s

section Keeps

variable {kept : σ → Prop}

theorem keeps_pure {value : α} : (pure value : Prog I ε α).Keeps W kept := fun _ hs => hs

theorem keeps_liftM {x : Except ε α} : (liftM x : Prog I ε α).Keeps W kept :=
  fun _ hs => sat_liftM.mpr hs

/-- Two programs that keep something, one after the other. -/
theorem Keeps.bind (hp : p.Keeps W kept)
    (hf : ∀ value, (f value).Keeps W kept) : (p >>= f).Keeps W kept := by
  intro s hs
  refine sat_bind.mpr ((hp s hs).mono ?_)
  rintro (err | value) t ht
  · exact ht
  · exact hf value t ht

theorem Keeps.attempt {δ : Type} (hp : p.Keeps W kept) :
    (p.attempt : Prog I δ (Except ε α)).Keeps W kept :=
  fun s hs => sat_attempt.mpr (hp s hs)

/-- **Handled programs**: what every handler keeps, the whole program keeps. -/
theorem keeps_handle {J : Interface} {δ : Type}
    {handler : (request : J.Request) → Prog I ε (J.Answer request)}
    (hhandler : ∀ request, (handler request).Keeps W kept) (p : Prog J δ α) :
    (p.handle handler).Keeps W kept := by
  induction p with
  | done value => exact keeps_pure
  | fail err => exact keeps_pure
  | ask request next ih => exact (hhandler request).bind ih

end Keeps

/-- A request whose answer is read at once. -/
theorem sat_query {request : I.Request} {read : I.Answer request → Except δ α}
    {wrap : δ → ε} :
    (query request read wrap).Sat W post s ↔
      ∀ s', W.rely s s' → W.guar request s' ∧ ∀ answer t, W.serves request s' answer t →
        post ((read answer).mapError wrap) t := by
  refine forall₂_congr fun s' _ => and_congr_right fun _ => forall₃_congr fun answer t _ => ?_
  show (lift _).Sat W post t ↔ _
  cases read answer with
  | ok value => exact Iff.rfl
  | error err => exact Iff.rfl

/-- One request that is written down. -/
theorem sat_traced {allowed : (request : I.Request) → I.Answer request → Prop}
    {asked : I.Request} {f : I.Answer asked → Prog I ε β}
    {post : Except ε β → List (Event I) → Prop} {log : List (Event I)}
    (h : ∀ answer, allowed asked answer →
      (f answer).Sat (World.traced allowed) post (log ++ [⟨asked, answer⟩])) :
    (request asked >>= f).Sat (World.traced allowed) post log := by
  rintro _ rfl
  refine ⟨trivial, ?_⟩
  rintro answer _ ⟨hallowed, rfl⟩
  exact h answer hallowed

variable {t : σ} {out : Except ε α}

/-- A judgement holds of every undisturbed execution. -/
theorem Sat.runs (h : p.Sat W post s) (hrun : p.Runs W.serves s out t) : post out t := by
  induction hrun with
  | done value s => exact h
  | fail err s => exact h
  | ask hserve _ ih => exact ih ((h _ (W.rely_refl _)).2 _ _ hserve)

variable {serves serves' : (request : I.Request) → σ → I.Answer request → σ → Prop}

theorem Runs.mono
    (hsub : ∀ request s answer t, serves' request s answer t → serves request s answer t)
    (h : p.Runs serves' s out t) :
    p.Runs serves s out t := by
  induction h with
  | done value s => exact .done value s
  | fail err s => exact .fail err s
  | ask hserve _ ih => exact .ask (hsub _ _ _ _ hserve) ih

/-- A program that waits keeps its judgement while the environment moves. -/
theorem Sat.rely {s' : σ} (h : p.Sat W post s) (hrely : W.rely s s')
    (hpost : ∀ out, post out s → post out s') : p.Sat W post s' := by
  cases p with
  | done value => exact hpost _ h
  | fail err => exact hpost _ h
  | ask request next =>
    intro u hu
    exact h u (W.rely_trans hrely hu)

/-- A judgement without other lanes holds for every choice of fewer answers. -/
theorem Sat.restrict
    (hsub : ∀ request s answer t, serves' request s answer t → serves request s answer t)
    (h : p.Sat (World.quiet serves) post s) : p.Sat (World.quiet serves') post s := by
  induction p generalizing s with
  | done value => exact h
  | fail err => exact h
  | ask request next ih =>
    intro u hu
    refine ⟨trivial, fun answer t hserve => ?_⟩
    exact ih answer ((h u hu).2 answer t (hsub _ _ _ _ hserve))

theorem ok_bind : (liftM (.ok value : Except ε α) : Prog I ε α) >>= f = f value := rfl

theorem check_pure_bind {value : β} {f : β → Prog I ε γ} :
    (liftM (x >>= fun _ => pure value) : Prog I ε β) >>= f
      = (liftM x : Prog I ε α) >>= fun _ => f value := by
  cases x with
  | error err => rfl
  | ok _ => rfl

variable {g : α → Prog I ε β}

/-- Two continuations that agree on the value of a check make the same program. -/
theorem check_congr (h : ∀ value, x = .ok value → f value = g value) :
    (liftM x : Prog I ε α) >>= f = (liftM x : Prog I ε α) >>= g := by
  cases x with
  | error err => rfl
  | ok value => exact h value rfl

/-- Two continuations that agree on what a program can return, whatever it is
    answered, make the same program. -/
theorem bind_congr_of_sat (hserves : ∀ request s answer, ∃ t, W.serves request s answer t)
    (h : p.Sat W (fun out _ => ∀ value, out = .ok value → f value = g value) s) :
    p >>= f = p >>= g := by
  induction p generalizing s with
  | done value => exact h value rfl
  | fail err => rfl
  | ask request next ih =>
    refine congrArg (ask request) (funext fun answer => ?_)
    obtain ⟨t, hserve⟩ := hserves request s answer
    exact ih answer ((h s (W.rely_refl s)).2 answer t hserve)

/-! ### Programs that leave the state to others -/

/-- The state has moved along `rely` only, and a value comes with its facts about the
    final state. -/
def Ends (W : World I σ) (s : σ) (facts : α → σ → Prop) : Except ε α → σ → Prop
  | .ok value, t => W.rely s t ∧ facts value t
  | .error _, t => W.rely s t

variable {facts : α → σ → Prop}

/-- Sequencing after a program that leaves the state to others. -/
theorem sat_then {post : Except ε β → σ → Prop} (hp : p.Sat W (Ends W s facts) s)
    (hok : ∀ value t, W.rely s t → facts value t → (f value).Sat W post t)
    (herr : ∀ err t, W.rely s t → post (.error err) t) : (p >>= f).Sat W post s := by
  refine sat_bind.mpr (hp.mono ?_)
  rintro (err | value) t h
  · exact herr err t h
  · exact hok value t h.1 h.2

/-- Sequencing two programs that leave the state to others. -/
theorem ends_bind {facts' : β → σ → Prop} (hp : p.Sat W (Ends W s facts) s)
    (hok : ∀ value t, W.rely s t → facts value t → (f value).Sat W (Ends W t facts') t) :
    (p >>= f).Sat W (Ends W s facts') s := by
  refine sat_then hp (fun value t hrely hfacts => ?_) fun _ _ hrely => hrely
  refine (hok value t hrely hfacts).mono ?_
  rintro (err | value) u h
  · exact W.rely_trans hrely h
  · exact ⟨W.rely_trans hrely h.1, h.2⟩

theorem sat_check {post : Except ε β → σ → Prop}
    (hok : ∀ value, x = .ok value → (f value).Sat W post s)
    (herr : ∀ err, post (.error err) s) :
    ((liftM x : Prog I ε α) >>= f).Sat W post s := by
  refine sat_liftM_bind.mpr ?_
  cases x with
  | error err => exact herr err
  | ok value => exact hok value rfl

/-- A check in front of a program that leaves the state to others. -/
theorem ends_check {facts : β → σ → Prop}
    (hok : ∀ value, x = .ok value → (f value).Sat W (Ends W s facts) s) :
    ((liftM x : Prog I ε α) >>= f).Sat W (Ends W s facts) s :=
  sat_check hok fun _ => W.rely_refl s

theorem ends_pure (h : facts value s) :
    (pure value : Prog I ε α).Sat W (Ends W s facts) s := ⟨W.rely_refl s, h⟩

/-- A computation without requests ends at once. -/
theorem ends_liftM (h : ∀ value, x = .ok value → facts value s) :
    (liftM x : Prog I ε α).Sat W (Ends W s facts) s := by
  refine sat_liftM.mpr ?_
  cases x with
  | error err => exact W.rely_refl s
  | ok value => exact ⟨W.rely_refl s, h value rfl⟩

theorem ends_mono {facts' : α → σ → Prop} (hp : p.Sat W (Ends W s facts) s)
    (h : ∀ value t, W.rely s t → facts value t → facts' value t) :
    p.Sat W (Ends W s facts') s := by
  refine hp.mono ?_
  rintro (err | value) t ht
  · exact ht
  · exact ⟨ht.1, h value t ht.1 ht.2⟩

end Prog

/-! ## One lane and an environment -/

/-- A step of the lane or of the environment; the lane runs one program at a time. -/
inductive Move (W : World I σ) (env : σ → σ → Prop) (starts : Prog I ε α → Prop) :
    Option (Prog I ε α) × σ → Option (Prog I ε α) × σ → Prop where
  | env {lane : Option (Prog I ε α)} {s t : σ} (h : env s t) :
      Move W env starts (lane, s) (lane, t)
  | start {p : Prog I ε α} {s : σ} (h : starts p) : Move W env starts (none, s) (some p, s)
  | ask {request : I.Request} {next : I.Answer request → Prog I ε α} {s t : σ}
      {answer : I.Answer request} (h : W.serves request s answer t) :
      Move W env starts (some (.ask request next), s) (some (next answer), t)
  | done {value : α} {s : σ} : Move W env starts (some (.done value), s) (none, s)
  | fail {err : ε} {s : σ} : Move W env starts (some (.fail err), s) (none, s)

/-- The configurations an idle lane and a state can reach. -/
def Reaches (W : World I σ) (env : σ → σ → Prop) (starts : Prog I ε α → Prop) (s : σ)
    (lane : Option (Prog I ε α)) (t : σ) : Prop :=
  Relation.ReflTransGen (Move W env starts) (none, s) (lane, t)

variable {starts : Prog I ε α → Prop} {env : σ → σ → Prop} {s t : σ}

/-- **The interleaving rule.**  An invariant that the environment keeps along `rely`
    and that every guaranteed request keeps holds in every reachable state, when every
    program of the lane meets its judgement from every state with the invariant. -/
theorem interleaving_safe {W : World I σ}
    {inv : σ → Prop} (henv : ∀ s t, inv s → env s t → inv t ∧ W.rely s t)
    (hserves : ∀ request s answer t, inv s → W.guar request s →
      W.serves request s answer t → inv t)
    (hstarts : ∀ p s, starts p → inv s → p.Sat W (fun _ _ => True) s)
    {lane : Option (Prog I ε α)} (hs : inv s) (hreach : Reaches W env starts s lane t) :
    inv t := by
  -- the running program keeps its judgement, so its next request is guaranteed
  have hboth : ∀ c, Relation.ReflTransGen (Move W env starts) (none, s) c →
      inv c.2 ∧ ∀ p, c.1 = some p → p.Sat W (fun _ _ => True) c.2 := by
    intro c hc
    induction hc with
    | refl => exact ⟨hs, fun p hp => by cases hp⟩
    | tail _ hmove ih =>
      obtain ⟨hinv, hsat⟩ := ih
      cases hmove with
      | env h =>
        obtain ⟨hinv', hrely⟩ := henv _ _ hinv h
        exact ⟨hinv', fun p hp => (hsat p hp).rely hrely fun _ _ => trivial⟩
      | start h =>
        refine ⟨hinv, fun p hp => ?_⟩
        cases hp
        exact hstarts _ _ h hinv
      | ask h =>
        have hstep := hsat _ rfl _ (W.rely_refl _)
        refine ⟨hserves _ _ _ _ hinv hstep.1 h, fun p hp => ?_⟩
        cases hp
        exact hstep.2 _ _ h
      | done | fail => exact ⟨hinv, fun p hp => by cases hp⟩
  exact (hboth _ hreach).1

/-! ## Many lanes -/

section Lanes

variable {ι : Type} [DecidableEq ι]

/-- A step of one of the lanes or of the environment; a lane may stop between two
    requests, whether its program has ended or not. -/
inductive LanesMove (W : ι → World I σ) (env : σ → σ → Prop)
    (starts : Prog I ε α → Prop) :
    (ι → Option (Prog I ε α)) × σ → (ι → Option (Prog I ε α)) × σ → Prop where
  | env {lanes : ι → Option (Prog I ε α)} {s t : σ} (h : env s t) :
      LanesMove W env starts (lanes, s) (lanes, t)
  | start {lanes : ι → Option (Prog I ε α)} {p : Prog I ε α} {s : σ} (i : ι)
      (idle : lanes i = none) (h : starts p) :
      LanesMove W env starts (lanes, s) (Function.update lanes i (some p), s)
  | ask {lanes : ι → Option (Prog I ε α)} {request : I.Request}
      {next : I.Answer request → Prog I ε α} {s t : σ} {answer : I.Answer request} (i : ι)
      (running : lanes i = some (.ask request next)) (h : (W i).serves request s answer t) :
      LanesMove W env starts (lanes, s) (Function.update lanes i (some (next answer)), t)
  | stop {lanes : ι → Option (Prog I ε α)} {s : σ} (i : ι) :
      LanesMove W env starts (lanes, s) (Function.update lanes i none, s)

/-- The configurations reached from another one. -/
def LanesReach (W : ι → World I σ) (env : σ → σ → Prop) (starts : Prog I ε α → Prop) :
    (ι → Option (Prog I ε α)) × σ → (ι → Option (Prog I ε α)) × σ → Prop :=
  Relation.ReflTransGen (LanesMove W env starts)

/-- A world in which requests are served in states with an invariant only. -/
def World.under (W : World I σ) (inv : σ → Prop) : World I σ where
  serves := fun request s answer t => inv s ∧ W.serves request s answer t
  rely := W.rely
  guar := W.guar
  rely_refl := W.rely_refl
  rely_trans := W.rely_trans

/-- What the rule for lanes asks of an invariant, and of a relation between the states
    before and after a step.  Programs are judged under the invariant. -/
structure LanesRule (W : ι → World I σ) (env : σ → σ → Prop)
    (starts : Prog I ε α → Prop)
    (inv : σ → Prop) (rel : σ → σ → Prop) : Prop where
  env : ∀ s t, inv s → env s t → inv t ∧ rel s t ∧ ∀ i, (W i).rely s t
  serves : ∀ i request s answer t, inv s → (W i).guar request s →
    (W i).serves request s answer t →
    inv t ∧ rel s t ∧ ∀ j, j ≠ i → (W j).rely s t
  starts : ∀ i p s, starts p → inv s → p.Sat ((W i).under inv) (fun _ _ => True) s
  refl : ∀ s, rel s s
  trans : ∀ s t u, rel s t → rel t u → rel s u

variable {W : ι → World I σ} {env : σ → σ → Prop} {starts : Prog I ε α → Prop}
  {inv : σ → Prop}
  {rel : σ → σ → Prop}

/-- The invariant, and the judgement of every running program. -/
def LanesInv (W : ι → World I σ) (inv : σ → Prop)
    (c : (ι → Option (Prog I ε α)) × σ) : Prop :=
  inv c.2 ∧ ∀ i p, c.1 i = some p → p.Sat ((W i).under inv) (fun _ _ => True) c.2

variable {c c' : (ι → Option (Prog I ε α)) × σ}

/-- One step keeps the invariant and moves along the relation. -/
theorem LanesRule.step (rule : LanesRule W env starts inv rel) (hc : LanesInv W inv c)
    (hmove : LanesMove W env starts c c') : LanesInv W inv c' ∧ rel c.2 c'.2 := by
  obtain ⟨hinv, hsat⟩ := hc
  cases hmove with
  | env h =>
    obtain ⟨hinv', hrel, hrely⟩ := rule.env _ _ hinv h
    exact ⟨⟨hinv', fun i p hp => (hsat i p hp).rely (hrely i) fun _ _ => trivial⟩, hrel⟩
  | start i idle h =>
    refine ⟨⟨hinv, fun j p hp => ?_⟩, rule.refl _⟩
    by_cases hj : j = i
    · subst hj
      simp only [update_self, Option.some.injEq] at hp
      subst hp
      exact rule.starts j _ _ h hinv
    · exact hsat j p ((update_of_ne hj ..).symm.trans hp)
  | ask i running h =>
    have hstep := hsat i _ running _ ((W i).rely_refl _)
    obtain ⟨hinv', hrel, hrely⟩ := rule.serves i _ _ _ _ hinv hstep.1 h
    refine ⟨⟨hinv', fun j p hp => ?_⟩, hrel⟩
    by_cases hj : j = i
    · subst hj
      simp only [update_self, Option.some.injEq] at hp
      subst hp
      exact hstep.2 _ _ ⟨hinv, h⟩
    · have hp' : _ = some p := (update_of_ne hj ..).symm.trans hp
      exact (hsat j p hp').rely (hrely j hj) fun _ _ => trivial
  | stop i =>
    refine ⟨⟨hinv, fun j p hp => ?_⟩, rule.refl _⟩
    by_cases hj : j = i
    · subst hj
      simp only [update_self, reduceCtorEq] at hp
    · exact hsat j p ((update_of_ne hj ..).symm.trans hp)

/-- A step of the lanes, or a crash that stops all of them. -/
inductive CrashMove (W : ι → World I σ) (env : σ → σ → Prop)
    (starts : Prog I ε α → Prop)
    (crash : σ → σ → Prop) :
    (ι → Option (Prog I ε α)) × σ → (ι → Option (Prog I ε α)) × σ → Prop where
  | move {c c' : (ι → Option (Prog I ε α)) × σ} (h : LanesMove W env starts c c') :
      CrashMove W env starts crash c c'
  | crash {lanes : ι → Option (Prog I ε α)} {s t : σ} (h : crash s t) :
      CrashMove W env starts crash (lanes, s) (fun _ => none, t)

/-- The configurations that lanes reach while crashes may end them. -/
def CrashReach (W : ι → World I σ) (env : σ → σ → Prop) (starts : Prog I ε α → Prop)
    (crash : σ → σ → Prop) :
    (ι → Option (Prog I ε α)) × σ → (ι → Option (Prog I ε α)) × σ → Prop :=
  Relation.ReflTransGen (CrashMove W env starts crash)

variable {crash : σ → σ → Prop}

/-- What is reached without crashes is reached with them. -/
theorem LanesReach.crashReach
    (h : LanesReach W env starts c c') : CrashReach W env starts crash c c' := by
  induction h with
  | refl => exact .refl
  | tail _ hmove ih => exact ih.tail (.move hmove)

/-- **The rule for many lanes with crashes.** -/
theorem crash_safe (rule : LanesRule W env starts inv rel)
    (hcrash : ∀ s t, inv s → crash s t → inv t ∧ rel s t) (hc : LanesInv W inv c)
    (hreach : CrashReach W env starts crash c c') : LanesInv W inv c' ∧ rel c.2 c'.2 := by
  induction hreach with
  | refl => exact ⟨hc, rule.refl _⟩
  | tail _ hmove ih =>
    obtain ⟨hinv, hrel⟩ := ih
    cases hmove with
    | move h =>
      obtain ⟨hinv', hrel'⟩ := rule.step hinv h
      exact ⟨hinv', rule.trans _ _ _ hrel hrel'⟩
    | crash h =>
      obtain ⟨hinv', hrel'⟩ := hcrash _ _ hinv.1 h
      exact ⟨⟨hinv', fun i p hp => by cases hp⟩, rule.trans _ _ _ hrel hrel'⟩

omit [DecidableEq ι] in
theorem lanesInv_idle {s : σ} (h : inv s) :
    LanesInv W inv ((fun _ => none, s) : (ι → Option (Prog I ε α)) × σ) :=
  ⟨h, fun i p hp => by cases hp⟩

end Lanes

/-! ## Stepping a program -/

/-- Answer the next `count` requests of a program, as long as they are accepted. -/
def Prog.advance (serve : (request : I.Request) → σ → I.Answer request × σ)
    (accept : I.Request → σ → Bool) : Nat → Prog I ε α → σ → Prog I ε α × σ
  | count + 1, .ask request next, s =>
    if accept request s then
      advance serve accept count (next (serve request s).1) (serve request s).2
    else (.ask request next, s)
  | _, p, s => (p, s)

/-- The program has ended. -/
def Prog.ended : Prog I ε α → Bool
  | .ask _ _ => false
  | _ => true

section Stepping

variable {W : World I σ} {env : σ → σ → Prop} {starts : Prog I ε α → Prop}
  {serve : (request : I.Request) → σ → I.Answer request × σ}
  {accept : I.Request → σ → Bool}
  (hserve : ∀ request s, accept request s = true →
    W.serves request s (serve request s).1 (serve request s).2) {s t : σ} (count : Nat)
  {p : Prog I ε α}
include hserve

/-- Advancing a lane by an executable environment stays reached. -/
theorem reaches_advance (h : Reaches W env starts s (some p) t) :
    Reaches W env starts s (some (p.advance serve accept count t).1)
      (p.advance serve accept count t).2 := by
  induction count generalizing p t with
  | zero => cases p <;> exact h
  | succ count ih =>
    cases p with
    | done value => exact h
    | fail err => exact h
    | ask request next =>
      rw [Prog.advance]
      split_ifs with haccept
      · exact ih (h.tail (.ask (hserve request t haccept)))
      · exact h

/-- An idle lane can run a program to its end. -/
theorem reaches_ended (hp : starts p) (hended : (p.advance serve accept count t).1.ended = true)
    (h : Reaches W env starts s none t) :
    Reaches W env starts s none (p.advance serve accept count t).2 := by
  have hlane := reaches_advance hserve count (h.tail (.start hp))
  cases hend : (p.advance serve accept count t).1 with
  | done value =>
    rw [hend] at hlane
    exact hlane.tail .done
  | fail err =>
    rw [hend] at hlane
    exact hlane.tail .fail
  | ask request next =>
    rw [hend] at hended
    cases hended

end Stepping

variable {serve : (request : I.Request) → σ → I.Answer request × σ}
  {accept : I.Request → σ → Bool}
  {p : Prog I ε α}

/-- Advancing one of the lanes by an executable environment stays reached. -/
theorem lanesReach_advance {ι : Type} [DecidableEq ι] {W : ι → World I σ} {i : ι}
    (hserve : ∀ request s, accept request s = true →
      (W i).serves request s (serve request s).1 (serve request s).2)
    {c : (ι → Option (Prog I ε α)) × σ} {lanes : ι → Option (Prog I ε α)} (count : Nat)
    (h : LanesReach W env starts c (update lanes i (some p), t)) :
    LanesReach W env starts c (update lanes i (some (p.advance serve accept count t).1),
      (p.advance serve accept count t).2) := by
  induction count generalizing p t with
  | zero => cases p <;> exact h
  | succ count ih =>
    cases p with
    | done value => exact h
    | fail err => exact h
    | ask request next =>
      rw [Prog.advance]
      split_ifs with haccept
      · refine ih ?_
        refine h.tail ?_
        have hrunning : update lanes i (some (.ask request next)) i
            = some (.ask request next) := update_self ..
        have hstep : LanesMove W env starts _ _ := .ask i hrunning (hserve request t haccept)
        rw [update_idem] at hstep
        exact hstep
      · exact h

/-- The result of a program that has ended. -/
def Prog.result : Prog I ε α → Option (Except ε α)
  | .done value => some (.ok value)
  | .fail err => some (.error err)
  | .ask _ _ => none

/-- A program that is advanced to its end is a run. -/
theorem runs_advance {serves : (request : I.Request) → σ → I.Answer request → σ → Prop}
    (hserve : ∀ request s, serves request s (serve request s).1 (serve request s).2)
    (count : Nat) {out : Except ε α} (h : (p.advance serve accept count s).1.result = some out) :
    p.Runs serves s out (p.advance serve accept count s).2 := by
  induction count generalizing p s with
  | zero =>
    cases p with
    | done value =>
      cases h
      exact .done value s
    | fail err =>
      cases h
      exact .fail err s
    | ask request next => cases h
  | succ count ih =>
    cases p with
    | done value =>
      cases h
      exact .done value s
    | fail err =>
      cases h
      exact .fail err s
    | ask request next =>
      rw [Prog.advance] at h ⊢
      split_ifs at h ⊢ with haccept
      · exact .ask (hserve request s) (ih h)
      · cases h

end Interaction
