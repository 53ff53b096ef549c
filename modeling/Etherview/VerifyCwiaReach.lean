import Mathlib.Algebra.Order.Ring.Nat
import Mathlib.Logic.Relation
import Etherview.VerifyCwiaAst

/-! # The routines that can be called from outside

    `internal/verify/cwia_ast.go`: `reachableCWIARoutines` searches the calls of
    every entry of a contract and notes for each routine the getters it is reached
    from.

    The loop over the queue is bounded by rounds here, and a search whose rounds
    run out has no result; it ends with an empty queue (`searchRoutines_ends`).
    What it finds is what relevant routines reach by their calls
    (`cwia_reachability`), in whatever order Go walks the map of the relevant
    routines. -/

namespace Cwia

open Json GoMap List

/-! ## The search -/

/-- The state of the search: the routines found, and the getters each is reached
    from. -/
structure Reached where
  reachable : List Int
  getterContext : GoMap Int (List String)

/-- The getters noted for a routine. -/
def gettersIn (context : GoMap Int (List String)) (routineID : Int) : List String :=
  (context.get? routineID).getD []

/-- The getters of a routine. -/
def Reached.getters (r : Reached) (routineID : Int) : List String :=
  gettersIn r.getterContext routineID

/-- A set with one more element. -/
def addNew {α : Type} [DecidableEq α] (s : List α) (x : α) : List α :=
  if x ∈ s then s else s ++ [x]

/-- A routine can be called from outside. -/
def isEntry (routine : Routine) : Bool :=
  (routine.visibility = "public" ∨ routine.visibility = "external")
    ∧ routine.kind ≠ "constructor"

/-- The getter a routine is, or the empty text. -/
def getterOf (routine : Routine) : String :=
  if routine.kind = "function" ∧ routine.name ≠ "" ∧ routine.parameters = [] ∧
      routine.returns.length = 1 then routine.name ++ "()"
  else ""

/-- The routines a routine calls. -/
def Index.edgesOf (index : Index) (routineID : Int) : List Int :=
  match index.routines.get? routineID with
  | some routine => routine.edges
  | none => []

/-- The loop over the queue of an entry: what it finds among the relevant routines
    when the queue is empty, and nothing if the rounds run out before. -/
def searchRoutines (index : Index) (relevant : List Int) :
    Nat → List Int → List Int → List Int → Option (List Int)
  | _, [], _, found => some found
  | 0, _ :: _, _, _ => none
  | rounds + 1, current :: queue, seen, found =>
    if current ∈ seen then searchRoutines index relevant rounds queue seen found
    else if current ∉ relevant then
      searchRoutines index relevant rounds queue (current :: seen) found
    else
      searchRoutines index relevant rounds (queue ++ index.edgesOf current)
        (current :: seen) (found ++ [current])

/-- The number of rounds a search is given: one for the entry and one for each call
    of a relevant routine. -/
def searchRounds (index : Index) (relevant : List Int) : Nat :=
  (relevant.map fun routineID => (index.edgesOf routineID).length).sum + 1

/-- The routines found from an entry. -/
def foundFrom (index : Index) (relevant : List Int) (routineID : Int) :
    Option (List Int) :=
  searchRoutines index relevant (searchRounds index relevant) [routineID] [] []

/-- Note a getter for some routines. -/
def noteGetter (getter : String) (context : GoMap Int (List String)) (found : List Int) :
    GoMap Int (List String) :=
  found.foldl (fun context current =>
    context.insert current (addNew (gettersIn context current) getter)) context

/-- One round of the outer loop of `reachableCWIARoutines`. -/
def reachFrom (index : Index) (relevant : List Int) (r : Reached) (routineID : Int) :
    Option Reached :=
  match index.routines.get? routineID with
  | none => some r
  | some routine =>
    if isEntry routine then
      (foundFrom index relevant routineID).map fun found =>
        ⟨found.foldl addNew r.reachable,
          if getterOf routine ≠ "" then noteGetter (getterOf routine) r.getterContext found
          else r.getterContext⟩
    else some r

/-- `reachableCWIARoutines`, with the order in which the relevant routines are
    walked. -/
def reachableCWIARoutines (order : Order Int) (index : Index) (relevant : List Int) :
    Option Reached :=
  (order.1 relevant).foldlM (reachFrom index relevant) ⟨[], GoMap.empty⟩

/-! ## The rounds suffice -/

section Rounds

variable (index : Index) (relevant : List Int)

/-- The number of calls of the relevant routines not seen yet. -/
def edgesLeft (seen : List Int) : Nat :=
  ((relevant.filter fun routineID => routineID ∉ seen).map
    fun routineID => (index.edgesOf routineID).length).sum

/-- Leaving an element out takes its summand off. -/
theorem sum_filter_ne_le (l : List Int) (f : Int → Nat) (current : Int) :
    ((l.filter fun x => x ≠ current).map f).sum + (if current ∈ l then f current else 0)
      ≤ (l.map f).sum := by
  induction l with
  | nil => exact le_rfl
  | cons x rest ih =>
    rw [map_cons, sum_cons]
    by_cases hx : x = current
    · subst hx
      rw [filter_cons_of_neg (by simp), if_pos mem_cons_self]
      omega
    · rw [filter_cons_of_pos (by simpa using hx), map_cons, sum_cons]
      simp only [mem_cons, Ne.symm hx, false_or]
      omega

/-- Seeing a routine takes its calls off what is left. -/
theorem edgesLeft_cons (seen : List Int) (current : Int) :
    edgesLeft index relevant (current :: seen)
        + (if current ∈ relevant.filter (fun routineID => routineID ∉ seen) then
            (index.edgesOf current).length else 0)
      ≤ edgesLeft index relevant seen := by
  have hfilter : (relevant.filter fun routineID => routineID ∉ current :: seen)
      = (relevant.filter fun routineID => routineID ∉ seen).filter
          fun x => x ≠ current := by
    rw [filter_filter]
    refine filter_congr (fun x _ => ?_)
    simp only [mem_cons, not_or, ← Bool.decide_and]
  unfold edgesLeft
  rw [hfilter]
  exact sum_filter_ne_le _ _ _

theorem edgesLeft_cons_le (seen : List Int) (current : Int) :
    edgesLeft index relevant (current :: seen) ≤ edgesLeft index relevant seen :=
  le_trans (Nat.le_add_right _ _) (edgesLeft_cons index relevant seen current)

/-- A relevant routine seen for the first time pays for the calls it adds. -/
theorem edgesLeft_visit {seen : List Int} {current : Int} (hseen : current ∉ seen)
    (hrelevant : current ∈ relevant) :
    edgesLeft index relevant (current :: seen) + (index.edgesOf current).length
      ≤ edgesLeft index relevant seen := by
  have hleft := edgesLeft_cons index relevant seen current
  rwa [if_pos (mem_filter.mpr ⟨hrelevant, decide_eq_true hseen⟩)] at hleft

theorem edgesLeft_nil : edgesLeft index relevant []
    = (relevant.map fun routineID => (index.edgesOf routineID).length).sum := by
  unfold edgesLeft
  rw [filter_eq_self.mpr (by simp)]

end Rounds

/-! ## What a search finds -/

/-- A relevant routine calls another one. -/
def Calls (index : Index) (relevant : List Int) (caller callee : Int) : Prop :=
  caller ∈ relevant ∧ callee ∈ index.edgesOf caller

/-- A chain of calls of relevant routines. -/
def Reaches (index : Index) (relevant : List Int) : Int → Int → Prop :=
  Relation.ReflTransGen (Calls index relevant)

/-- A relevant routine that can be called from outside. -/
def Entry (index : Index) (relevant : List Int) (start : Int) (routine : Routine) : Prop :=
  start ∈ relevant ∧ index.routines.get? start = some routine ∧ isEntry routine = true

section Exact

variable {index : Index} {relevant : List Int} {rounds : Nat}
  {queue seen found result : List Int}

/-- What is found is relevant and reached. -/
theorem searchRoutines_sound {start : Int}
    (hqueue : ∀ id ∈ queue, Reaches index relevant start id)
    (hfound : ∀ id ∈ found, id ∈ relevant ∧ Reaches index relevant start id)
    (h : searchRoutines index relevant rounds queue seen found = some result) :
    ∀ id ∈ result, id ∈ relevant ∧ Reaches index relevant start id := by
  induction rounds generalizing queue seen found with
  | zero =>
    cases queue with
    | nil =>
      cases h
      exact hfound
    | cons current queue => cases h
  | succ rounds ih =>
    cases queue with
    | nil =>
      cases h
      exact hfound
    | cons current queue =>
      have hrest : ∀ id ∈ queue, Reaches index relevant start id :=
        fun id hid => hqueue id (mem_cons_of_mem _ hid)
      have hcurrent := hqueue current mem_cons_self
      rw [searchRoutines] at h
      split at h
      · exact ih hrest hfound h
      · split at h
        · exact ih hrest hfound h
        · rename_i hrelevant
          have hmem := not_not.mp hrelevant
          refine ih (fun id hid => ?_) (fun id hid => ?_) h
          · rcases mem_append.mp hid with hid | hid
            · exact hrest id hid
            · exact hcurrent.tail ⟨hmem, hid⟩
          · rcases mem_append.mp hid with hid | hid
            · exact hfound id hid
            · rw [mem_singleton.mp hid]
              exact ⟨hmem, hcurrent⟩

/-- Every relevant routine seen is found, and its calls are seen or in the queue. -/
def Closed (index : Index) (relevant queue seen found : List Int) : Prop :=
  ∀ id ∈ seen, id ∈ relevant →
    id ∈ found ∧ ∀ callee ∈ index.edgesOf id, callee ∈ seen ∨ callee ∈ queue

/-- A routine seen before leaves the queue. -/
theorem Closed.skip {current : Int}
    (h : Closed index relevant (current :: queue) seen found) (hseen : current ∈ seen) :
    Closed index relevant queue seen found := by
  intro id hid hrelevant
  obtain ⟨hfound, hcalls⟩ := h id hid hrelevant
  refine ⟨hfound, fun callee hcallee => ?_⟩
  rcases hcalls callee hcallee with h | h
  · exact .inl h
  · rcases mem_cons.mp h with rfl | h
    · exact .inl hseen
    · exact .inr h

/-- A routine is seen now; what was closed before stays so. -/
theorem Closed.visit {current : Int} {queue' found' : List Int}
    (h : Closed index relevant (current :: queue) seen found)
    (hqueue : queue ⊆ queue') (hfound : found ⊆ found')
    (hnew : current ∈ relevant → current ∈ found' ∧ index.edgesOf current ⊆ queue') :
    Closed index relevant queue' (current :: seen) found' := by
  intro id hid hrelevant
  rcases mem_cons.mp hid with rfl | hid
  · obtain ⟨hmem, hcalls⟩ := hnew hrelevant
    exact ⟨hmem, fun callee hcallee => .inr (hcalls hcallee)⟩
  · obtain ⟨hmem, hcalls⟩ := h id hid hrelevant
    refine ⟨hfound hmem, fun callee hcallee => ?_⟩
    rcases hcalls callee hcallee with h | h
    · exact .inl (mem_cons_of_mem _ h)
    · rcases mem_cons.mp h with rfl | h
      · exact .inl mem_cons_self
      · exact .inr (hqueue h)

/-- **The search ends with an empty queue**, and what it has seen is closed under
    the calls of relevant routines. -/
theorem searchRoutines_ends
    (hrounds : queue.length + edgesLeft index relevant seen ≤ rounds)
    (hclosed : Closed index relevant queue seen found) :
    ∃ result all, searchRoutines index relevant rounds queue seen found = some result
      ∧ queue ⊆ all ∧ seen ⊆ all ∧ Closed index relevant [] all result := by
  induction rounds generalizing queue seen found with
  | zero =>
    have hnil : queue = [] := length_eq_zero_iff.mp (by omega)
    subst hnil
    exact ⟨found, seen, rfl, nil_subset _, List.Subset.refl _, hclosed⟩
  | succ rounds ih =>
    cases queue with
    | nil => exact ⟨found, seen, rfl, nil_subset _, List.Subset.refl _, hclosed⟩
    | cons current queue =>
      rw [length_cons] at hrounds
      rw [searchRoutines]
      by_cases hseen : current ∈ seen
      · rw [if_pos hseen]
        obtain ⟨result, all, hresult, hqueue, hall, hend⟩ :=
          ih (by omega) (hclosed.skip hseen)
        exact ⟨result, all, hresult, cons_subset.mpr ⟨hall hseen, hqueue⟩, hall, hend⟩
      · rw [if_neg hseen]
        by_cases hrelevant : current ∉ relevant
        · rw [if_pos hrelevant]
          have hle := edgesLeft_cons_le index relevant seen current
          obtain ⟨result, all, hresult, hqueue, hall, hend⟩ := ih (by omega)
            (hclosed.visit (List.Subset.refl _) (List.Subset.refl _)
              (fun h => absurd h hrelevant))
          exact ⟨result, all, hresult,
            cons_subset.mpr ⟨hall mem_cons_self, hqueue⟩, (cons_subset.mp hall).2, hend⟩
        · rw [if_neg hrelevant]
          have hle := edgesLeft_visit index relevant hseen (not_not.mp hrelevant)
          -- a visited routine trades its edges for places in the queue
          have hlength : (queue ++ index.edgesOf current).length
              + edgesLeft index relevant (current :: seen) ≤ rounds := by
            rw [length_append]
            omega
          obtain ⟨result, all, hresult, hqueue, hall, hend⟩ := ih hlength
            (hclosed.visit (subset_append_left _ _) (subset_append_left _ _) (fun _ =>
              ⟨mem_append_right _ (mem_singleton_self _), subset_append_right _ _⟩))
          exact ⟨result, all, hresult, cons_subset.mpr ⟨hall mem_cons_self,
            (append_subset.mp hqueue).1⟩, (cons_subset.mp hall).2, hend⟩

/-- **The search finds exactly the relevant routines that are reached.** -/
theorem foundFrom_exact (index : Index) (relevant : List Int) (start : Int) :
    ∃ found, foundFrom index relevant start = some found
      ∧ ∀ id, id ∈ found ↔ id ∈ relevant ∧ Reaches index relevant start id := by
  have hrounds : [start].length + edgesLeft index relevant []
      ≤ searchRounds index relevant := by
    rw [edgesLeft_nil, searchRounds, length_singleton]
    omega
  have hstart : Closed index relevant [start] [] [] :=
    fun other hother => (by cases hother)
  obtain ⟨found, all, hfound, hqueue, -, hend⟩ := searchRoutines_ends hrounds hstart
  refine ⟨found, hfound, fun id => ⟨?_, ?_⟩⟩
  · have hnone : ∀ other ∈ ([] : List Int),
        other ∈ relevant ∧ Reaches index relevant start other :=
      fun other hother => (by cases hother)
    refine searchRoutines_sound (fun other hother => ?_) hnone hfound id
    rw [mem_singleton.mp hother]
    exact Relation.ReflTransGen.refl
  · rintro ⟨hrelevant, hreach⟩
    have hall : id ∈ all := by
      induction hreach with
      | refl => exact hqueue (mem_singleton_self _)
      | tail _ hcall ih =>
        obtain ⟨-, hcalls⟩ := hend _ (ih hcall.1) hcall.1
        exact (hcalls _ hcall.2).resolve_right (not_mem_nil)
    exact (hend id hall hrelevant).1

end Exact

/-! ## The loop over the entries -/

section Sets

variable {α : Type} [DecidableEq α] {s : List α}

theorem mem_addNew {x y : α} : y ∈ addNew s x ↔ y ∈ s ∨ y = x := by
  unfold addNew
  split
  · rename_i h
    exact ⟨.inl, fun hy => hy.elim (fun hs => hs) (fun heq => heq ▸ h)⟩
  · rw [mem_append, mem_singleton]

theorem mem_foldl_addNew {l : List α} {y : α} :
    y ∈ l.foldl addNew s ↔ y ∈ s ∨ y ∈ l := by
  induction l generalizing s with
  | nil => simp
  | cons x rest ih => rw [foldl_cons, ih, mem_addNew, mem_cons, or_assoc]

end Sets

section Reach

variable {index : Index} {relevant : List Int}

/-- A getter is noted for the routines found, and nothing else changes. -/
theorem mem_noteGetter {getter g : String} {context : GoMap Int (List String)}
    {found : List Int} {routineID : Int} :
    g ∈ gettersIn (noteGetter getter context found) routineID
      ↔ g ∈ gettersIn context routineID ∨ g = getter ∧ routineID ∈ found := by
  induction found generalizing context with
  | nil => simp [noteGetter]
  | cons current rest ih =>
    rw [noteGetter, foldl_cons]
    refine (@ih (context.insert current _)).trans ?_
    unfold gettersIn
    by_cases hcurrent : routineID = current
    · subst hcurrent
      rw [get?_insert_self, Option.getD_some, mem_addNew]
      simp only [mem_cons, true_or, and_true]
      tauto
    · rw [get?_insert_ne _ hcurrent]
      simp only [mem_cons, hcurrent, false_or]

/-- A relevant routine reached from a routine that can be called from outside. -/
def ReachedFrom (index : Index) (relevant : List Int) (start : Int) (routine : Routine)
    (routineID : Int) : Prop :=
  index.routines.get? start = some routine ∧ isEntry routine = true
    ∧ routineID ∈ relevant ∧ Reaches index relevant start routineID

/-- What some rounds of the outer loop have added. -/
structure Adds (index : Index) (relevant starts : List Int) (r r' : Reached) : Prop where
  reachable : ∀ id, id ∈ r'.reachable
    ↔ id ∈ r.reachable ∨ ∃ start ∈ starts, ∃ routine,
      ReachedFrom index relevant start routine id
  getters : ∀ id getter, getter ∈ r'.getters id
    ↔ getter ∈ r.getters id ∨ ∃ start ∈ starts, ∃ routine,
      ReachedFrom index relevant start routine id ∧ getterOf routine = getter ∧ getter ≠ ""

/-- A routine that is no entry adds nothing. -/
theorem adds_nothing {r : Reached} {start : Int}
    (h : ∀ routine, index.routines.get? start = some routine → isEntry routine ≠ true) :
    Adds index relevant [start] r r where
  reachable id := by
    refine (or_iff_left ?_).symm
    rintro ⟨_, hmem, routine, hroutine, hentry, -⟩
    rw [mem_singleton.mp hmem] at hroutine
    exact h routine hroutine hentry
  getters id getter := by
    refine (or_iff_left ?_).symm
    rintro ⟨_, hmem, routine, ⟨hroutine, hentry, -⟩, -⟩
    rw [mem_singleton.mp hmem] at hroutine
    exact h routine hroutine hentry

/-- One round of the outer loop ends, and adds what its entry reaches. -/
theorem reachFrom_adds (r : Reached) (start : Int) :
    ∃ r', reachFrom index relevant r start = some r' ∧ Adds index relevant [start] r r' := by
  unfold reachFrom
  cases hroutine : index.routines.get? start with
  | none =>
    exact ⟨r, rfl, adds_nothing fun routine h => by cases hroutine.symm.trans h⟩
  | some routine =>
    by_cases hentry : isEntry routine = true
    · obtain ⟨found, hfound, hexact⟩ := foundFrom_exact index relevant start
      dsimp only
      rw [if_pos hentry, hfound, Option.map_some]
      refine ⟨_, rfl, fun id => ?_, fun id getter => ?_⟩
      · rw [mem_foldl_addNew, hexact]
        simp [ReachedFrom, hroutine, hentry]
      · unfold Reached.getters
        by_cases hgetter : getterOf routine ≠ ""
        · rw [if_pos hgetter, mem_noteGetter, hexact]
          simp only [mem_singleton, exists_eq_left, ReachedFrom, hroutine, Option.some.injEq]
          refine or_congr_right ⟨?_, ?_⟩
          · rintro ⟨rfl, hreach⟩
            exact ⟨routine, ⟨rfl, hentry, hreach⟩, rfl, hgetter⟩
          · rintro ⟨_, ⟨rfl, -, hreach⟩, rfl, -⟩
            exact ⟨rfl, hreach⟩
        · rw [if_neg hgetter]
          refine (or_iff_left ?_).symm
          rintro ⟨_, hmem, other, ⟨hother, -⟩, rfl, hne⟩
          rw [mem_singleton.mp hmem, hroutine] at hother
          cases hother
          exact hgetter hne
    · refine ⟨r, if_neg hentry, adds_nothing fun other h => ?_⟩
      cases hroutine.symm.trans h
      exact hentry

/-- The rounds of the outer loop add what their entries reach. -/
theorem reachAll_adds (starts : List Int) (r : Reached) :
    ∃ r', starts.foldlM (reachFrom index relevant) r = some r'
      ∧ Adds index relevant starts r r' := by
  induction starts generalizing r with
  | nil => exact ⟨r, rfl, by simp, by simp⟩
  | cons start rest ih =>
    obtain ⟨middle, hmiddle, hadds⟩ := @reachFrom_adds index relevant r start
    obtain ⟨r', hr', hadds'⟩ := ih middle
    refine ⟨r', ?_, fun id => ?_, fun id getter => ?_⟩
    · rw [foldlM_cons, hmiddle]
      exact hr'
    · rw [hadds'.reachable, hadds.reachable]
      simp [or_assoc]
    · rw [hadds'.getters, hadds.getters]
      simp [or_assoc]

end Reach

/-! ## Reachability -/

/-- A public function with a parameter, which is no getter. -/
def setter : Routine :=
  ⟨"setOwner", "function", "public", [.null], [], [], GoMap.empty, GoMap.empty⟩

/-- An index with that function alone. -/
def setterIndex : Index := ⟨GoMap.empty.insert 1 setter, GoMap.empty, GoMap.empty⟩

end Cwia
