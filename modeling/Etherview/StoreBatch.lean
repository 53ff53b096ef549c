import Etherview.StoreTypes

/-! # The batch writer

    `coreJSONBatchWriter` of `internal/store/core_batch.go` collects rows, flushes them when an
    estimate says so, and halves a batch whose payload is too long.  Neither the estimates nor
    the lengths decide what is written (`batch_exact`). -/

namespace Store

open List Transact Tx

variable {T P ε : Type}

/-- The rows of a batch. -/
def coreWriteBatchMaxRows : Nat := 512

/-- The bytes of an encoded batch. -/
def coreWriteBatchMaxBytes : Nat := 4194304

/-- `json.Marshal`, the decoding of a payload and its length, and what `execute` answers after
    the payloads it was given before. -/
structure BatchCalls (T P ε : Type) where
  marshal : List T → Except ε P
  unmarshal : P → List T
  length : P → Nat
  execute : List P → P → Except ε Unit

/-- What a write can fail with: the encoding or the statement. -/
inductive BatchError (ε : Type) where
  | encode (operation : String) (err : ε)
  | execute (err : ε)

/-- `coreJSONBatchWriter`, with the payloads handed to `execute`. -/
structure CoreJSONBatchWriter (T P : Type) where
  rows : List T := []
  estimatedBytes : Int := 0
  executed : List P := []

/-- A call on the writer. -/
abbrev BatchM (T P ε : Type) := Tx (CoreJSONBatchWriter T P) (BatchError ε)

/-- The sum of two `int`s. -/
def addInt (a b : Int) : Int := (a + b).bmod 18446744073709551616

namespace CoreJSONBatchWriter

variable (calls : BatchCalls T P ε) (operation : String)

/-- `w.execute`. -/
def execute (payload : P) : BatchM T P ε Unit := do
  let w ← get
  modify fun w => { w with executed := w.executed ++ [payload] }
  liftM ((calls.execute w.executed payload).mapError BatchError.execute)

/-- Executes the rows, in halves as long as the encoded rows are too large. -/
def executeBounded (rows : List T) : BatchM T P ε Unit := do
  let payload ← liftM ((calls.marshal rows).mapError (BatchError.encode operation))
  if _h : calls.length payload > coreWriteBatchMaxBytes ∧ rows.length > 1 then do
    executeBounded (rows.take (rows.length / 2))
    executeBounded (rows.drop (rows.length / 2))
  else execute calls payload
termination_by rows.length
decreasing_by
  · rw [length_take]
    omega
  · rw [length_drop]
    omega

/-- Writes the rows that wait. -/
def flush : BatchM T P ε Unit := do
  let w ← get
  if w.rows.length = 0 then pure ()
  else do
    executeBounded calls operation w.rows
    modify fun w => { w with rows := [], estimatedBytes := 0 }

/-- Adds a row, after a flush where the batch would become too large. -/
def add (row : T) (estimatedBytes : Int) : BatchM T P ε Unit := do
  let estimated := max estimatedBytes 1
  let w ← get
  if w.rows.length > 0 ∧ (w.rows.length ≥ coreWriteBatchMaxRows ∨
      addInt w.estimatedBytes estimated > coreWriteBatchMaxBytes) then
    flush calls operation
  else pure ()
  modify fun w => { w with
    rows := w.rows ++ [row], estimatedBytes := addInt w.estimatedBytes estimated }

/-- `add` of every row with its estimate, and `close`. -/
def writeAll : List (T × Int) → BatchM T P ε Unit
  | [] => flush calls operation
  | (row, estimate) :: rest => do
    add calls operation row estimate
    writeAll rest

/-- A payload of some rows that is as long as allowed, or of one row. -/
structure Fits (payload : P) : Prop where
  pos : 1 ≤ (calls.unmarshal payload).length
  rows : (calls.unmarshal payload).length ≤ coreWriteBatchMaxRows
  bytes : calls.length payload ≤ coreWriteBatchMaxBytes ∨ (calls.unmarshal payload).length = 1

variable (rows sent added : List T) (x x' y y' : BatchM T P ε Unit) (w t : CoreJSONBatchWriter T P)
  (mid post : CoreJSONBatchWriter T P → Prop)

/-- The payloads hold the rows. -/
def Sent : Prop := (w.executed.map calls.unmarshal).flatten = rows

/-- What holds between two calls, after the rows `added`. -/
def Holds : Prop :=
  ∃ sent, Sent calls sent w ∧ sent ++ w.rows = added ∧ w.rows.length ≤ coreWriteBatchMaxRows

/-! ## One run beside another -/

/-- The same calls, with an `execute` that never fails. -/
def succeeding : BatchCalls T P ε := { calls with execute := fun _ _ => .ok () }

/-- Some call may fail. -/
def MayFail : Prop := (∃ rows err, calls.marshal rows = .error err) ∨
  ∃ executed payload err, calls.execute executed payload = .error err

/-- `x'` adds payloads that fit and ends in `post`; `x` ends as `x'` does, or a call has failed
    and its payloads are the first ones of `x'`. -/
structure Meets : Prop where
  grows : ∃ more, w.executed ++ more = (x'.run w).2.executed ∧ ∀ p ∈ more, Fits calls p
  ends : ∀ t, x'.run w = (.ok (), t) → post t
  follows : (∃ t, x.run w = (.ok (), t) ∧ x'.run w = (.ok (), t)) ∨
    ∃ err t, x.run w = (.error err, t) ∧ MayFail calls ∧ t.executed <+: (x'.run w).2.executed

variable {calls operation rows sent added x x' y y' w t mid post}

/-- Two writes that meet their specifications, one after the other. -/
theorem Meets.bind (hx : Meets calls x x' w mid) (hy : ∀ t, mid t → Meets calls y y' t post) :
    Meets calls (x >>= fun _ => y) (x' >>= fun _ => y') w post := by
  obtain ⟨first, hfirst, hfits⟩ := hx.grows
  obtain ⟨second, hsecond, hfits'⟩ : ∃ more, (x'.run w).2.executed ++ more =
      ((x' >>= fun _ => y').run w).2.executed ∧ ∀ p ∈ more, Fits calls p := by
    rcases hrun : x'.run w with ⟨err | _, t⟩
    · rw [run_bind_of_error hrun]
      exact ⟨[], append_nil _, forall_mem_nil _⟩
    · rw [run_bind_of_ok hrun]
      exact (hy t (hx.ends t hrun)).grows
  refine ⟨⟨first ++ second, ?_, fun p hp => ?_⟩, fun u h => ?_, ?_⟩
  · rw [← append_assoc, hfirst, hsecond]
  · exact (mem_append.mp hp).elim (hfits p) (hfits' p)
  · obtain ⟨_, t, hrun, h⟩ := run_bind_ok.mp h
    exact (hy t (hx.ends t hrun)).ends u h
  · rcases hx.follows with ⟨t, hrun, hrun'⟩ | ⟨err, t, hrun, hfail, hpre⟩
    · rw [run_bind_of_ok hrun, run_bind_of_ok hrun']
      exact (hy t (hx.ends t hrun')).follows
    · exact .inr ⟨err, t, run_bind_of_error hrun, hfail, hpre.trans ⟨second, hsecond⟩⟩

/-- A step that cannot fail and adds no payload. -/
theorem meets_step (h : x.run w = (.ok (), t)) (hsame : t.executed = w.executed) (hpost : post t) :
    Meets calls x x w post := by
  refine ⟨⟨[], ?_, forall_mem_nil _⟩, fun u hrun => ?_, .inl ⟨t, h, h⟩⟩
  · rw [h, append_nil, hsame]
  · cases h.symm.trans hrun
    exact hpost

theorem meets_get {y y' : CoreJSONBatchWriter T P → BatchM T P ε Unit}
    (h : Meets calls (y w) (y' w) w post) : Meets calls (get >>= y) (get >>= y') w post :=
  ⟨h.grows, h.ends, h.follows⟩

/-- Encoding the rows fails alike with both databases. -/
theorem meets_marshal {y y' : P → BatchM T P ε Unit}
    (h : ∀ payload, calls.marshal rows = .ok payload →
      Meets calls (y payload) (y' payload) w post) :
    Meets calls (liftM ((calls.marshal rows).mapError (BatchError.encode operation)) >>= y)
      (liftM ((calls.marshal rows).mapError (BatchError.encode operation)) >>= y') w post := by
  cases hm : calls.marshal rows with
  | error err =>
    exact ⟨⟨[], append_nil _, forall_mem_nil _⟩, fun _ h => (by cases h),
      .inr ⟨_, w, rfl, .inl ⟨rows, err, hm⟩, prefix_rfl⟩⟩
  | ok payload => exact ⟨(h payload hm).grows, (h payload hm).ends, (h payload hm).follows⟩

/-- Executing a payload sends its rows. -/
theorem execute_meets {payload : P} (hw : Sent calls sent w) (hfits : Fits calls payload) :
    Meets calls (execute calls payload) (execute (succeeding calls) payload) w
      (Sent calls (sent ++ calls.unmarshal payload)) := by
  refine ⟨⟨[payload], rfl, fun p hp => mem_singleton.mp hp ▸ hfits⟩, fun t h => ?_, ?_⟩
  · cases h
    rw [Sent, map_append, flatten_append, hw, map_singleton, flatten_singleton]
  · rw [execute, run_get_bind, run_modify_bind]
    cases hanswer : calls.execute w.executed payload with
    | error err => exact .inr ⟨_, _, rfl, .inr ⟨_, _, _, hanswer⟩, prefix_rfl⟩
    | ok _ => exact .inl ⟨_, rfl, rfl⟩

/-- Keeping a row for later holds it. -/
theorem append_meets {row : T} {estimated : Int} (hw : Holds calls added w)
    (hroom : w.rows.length < coreWriteBatchMaxRows) :
    let f := fun w : CoreJSONBatchWriter T P =>
      { w with rows := w.rows ++ [row], estimatedBytes := addInt w.estimatedBytes estimated }
    Meets calls (modify f : BatchM T P ε Unit) (modify f) w (Holds calls (added ++ [row])) := by
  obtain ⟨sent, hsent, hadded, -⟩ := hw
  refine meets_step rfl rfl ⟨sent, hsent, ?_, ?_⟩
  · rw [← append_assoc, hadded]
  · rw [length_append]
    exact hroom

variable (hdecode : ∀ rows p, calls.marshal rows = .ok p → calls.unmarshal p = rows)
include hdecode

/-- The payloads of a batch hold its rows in order. -/
theorem executeBounded_meets (hw : Sent calls sent w) (hpos : 1 ≤ rows.length)
    (hmax : rows.length ≤ coreWriteBatchMaxRows) :
    Meets calls (executeBounded calls operation rows)
      (executeBounded (succeeding calls) operation rows) w (Sent calls (sent ++ rows)) := by
  induction hn : rows.length using Nat.strongRecOn generalizing rows sent w with
  | _ n ih =>
    rw [executeBounded.eq_def calls, executeBounded.eq_def (succeeding calls)]
    refine meets_marshal fun payload hmarshal => ?_
    have hrows := hdecode rows payload hmarshal
    by_cases hlong : calls.length payload > coreWriteBatchMaxBytes ∧ rows.length > 1
    · -- both halves are shorter, and the second continues the first
      have htake := length_take_of_le (Nat.div_le_self rows.length 2)
      have hdrop := length_drop (l := rows) (i := rows.length / 2)
      rw [dif_pos hlong, dif_pos (c := (succeeding calls).length payload > _ ∧ _) hlong]
      refine .bind (ih _ (by omega) hw (by omega) (by omega) htake) fun t ht => ?_
      have hright := ih _ (by omega) ht (by omega) (by omega) hdrop
      rwa [append_assoc, take_append_drop] at hright
    · rw [dif_neg hlong, dif_neg (c := (succeeding calls).length payload > _ ∧ _) hlong]
      have hfits : Fits calls payload := by
        refine ⟨hrows ▸ hpos, hrows ▸ hmax, ?_⟩
        rw [hrows]
        omega
      have hsent := execute_meets hw hfits
      rwa [hrows] at hsent

theorem flush_meets (hw : Holds calls added w) :
    Meets calls (flush calls operation) (flush (succeeding calls) operation) w
      fun t => Holds calls added t ∧ t.rows = [] := by
  obtain ⟨sent, hsent, hadded, hmax⟩ := hw
  refine meets_get ?_
  split_ifs with hempty
  · exact meets_step rfl rfl ⟨⟨sent, hsent, hadded, hmax⟩, length_eq_zero_iff.mp hempty⟩
  · refine .bind (executeBounded_meets hdecode hsent (by omega) hmax) fun t ht => ?_
    exact meets_step rfl rfl ⟨⟨added, hadded ▸ ht, append_nil _, Nat.zero_le _⟩, rfl⟩

/-- An added row is held. -/
theorem add_meets {row : T} {estimate : Int} (hw : Holds calls added w) :
    Meets calls (add calls operation row estimate) (add (succeeding calls) operation row estimate) w
      (Holds calls (added ++ [row])) := by
  refine meets_get ?_
  split_ifs with hfull
  · refine .bind (flush_meets hdecode hw) fun t ht => append_meets ht.1 ?_
    rw [ht.2]
    exact Nat.zero_lt_succ _
  · refine append_meets hw ?_
    unfold coreWriteBatchMaxRows at *
    omega

/-- Adding all rows and flushing sends all of them. -/
theorem writeAll_meets {rows : List (T × Int)} (hw : Holds calls added w) :
    Meets calls (writeAll calls operation rows) (writeAll (succeeding calls) operation rows) w
      fun t => Holds calls (added ++ rows.map Prod.fst) t ∧ t.rows = [] := by
  induction rows generalizing w added with
  | nil =>
    rw [map_nil, append_nil]
    exact flush_meets hdecode hw
  | cons row rest ih =>
    refine .bind (add_meets hdecode hw) fun t ht => ?_
    have := ih ht
    rwa [append_assoc] at this

/-- **Every row is written once.**  The payloads handed to `execute` fit, and hold the rows in
    order at the end; calls that cannot fail end well; and a failing `execute` only cuts the
    sequence off. -/
theorem batch_exact (rows : List (T × Int)) :
    (∀ t, (writeAll calls operation rows).run {} = (.ok (), t) →
      (t.executed.map calls.unmarshal).flatten = rows.map Prod.fst) ∧
    (∀ p ∈ ((writeAll calls operation rows).run {}).2.executed, Fits calls p) ∧
    (¬ MayFail calls → ∃ t, (writeAll calls operation rows).run {} = (.ok (), t)) ∧
    ((writeAll calls operation rows).run {}).2.executed <+:
      ((writeAll (succeeding calls) operation rows).run {}).2.executed := by
  have hstart : Holds calls [] {} := ⟨[], rfl, rfl, Nat.zero_le _⟩
  have hmeets : Meets calls (writeAll calls operation rows)
      (writeAll (succeeding calls) operation rows) {} _ := writeAll_meets hdecode hstart
  obtain ⟨more, hmore, hfits⟩ := hmeets.grows
  rw [show more = _ from hmore] at hfits
  rcases hmeets.follows with ⟨t, hrun, hrun'⟩ | ⟨err, t, hrun, hfail, hpre⟩
  · obtain ⟨⟨sent, hsent, hadded, -⟩, hempty⟩ := hmeets.ends t hrun'
    rw [hempty, append_nil] at hadded
    rw [hrun'] at hfits
    rw [hrun, hrun']
    refine ⟨fun u hu => ?_, hfits, fun _ => ⟨t, rfl⟩, prefix_rfl⟩
    cases hu
    exact hsent.trans hadded
  · rw [hrun]
    exact ⟨fun _ h => (by cases h), fun p hp => hfits p (hpre.subset hp), absurd hfail, hpre⟩

omit hdecode

/-- Rows of 8 MiB each. -/
def largeRows : BatchCalls Nat (List Nat) Empty :=
  ⟨.ok, id, fun rows => 8388608 * rows.length, fun _ _ => .ok ()⟩

theorem batch_exact_largeRows : ∃ t, (writeAll largeRows "" [(3, 1), (4, 1)]).run {} = (.ok (), t)
    ∧ (t.executed.map id).flatten = [3, 4] := by
  have h := @batch_exact _ _ _ largeRows "" (fun _ _ h => (Except.ok.inj h).symm) [(3, 1), (4, 1)]
  obtain ⟨t, ht⟩ := h.2.2.1 (by rintro (⟨_, ⟨⟩, _⟩ | ⟨_, _, ⟨⟩, _⟩))
  exact ⟨t, ht, h.1 t ht⟩

end CoreJSONBatchWriter

end Store
