import Mathlib.Data.List.Flatten
import Mathlib.Logic.Function.Iterate
import Mathlib.Tactic.Set
import Etherview.EventsRelay

/-! # What the relay delivers

    Events are published in the order of their identifiers, each at most once.  An event
    whose identifier is above all that the relay has read when its transaction commits
    is published by the next drain that reads the table to its end, unless it is pruned
    before.  An event whose transaction commits after the relay has published a larger
    identifier is never published: the cursor has passed it. -/

namespace Events

open Paging Transact List Function

/-! ## The table -/

/-- Rows that are not visible yet. -/
def Database.pending (db : Database) : List EventRow := db.txs.flatMap Transaction.inserted

/-- A writer has one transaction, rows have distinct identifiers from the sequence. -/
structure Database.WellFormed (db : Database) : Prop where
  owners : (db.txs.map Transaction.owner).Nodup
  ids : ((db.rows ++ db.pending).map EventRow.id).Nodup
  valid : ∀ row ∈ db.rows ++ db.pending, validateEvent row = true ∧ row.id ≤ db.seq
  seq : db.seq ≤ maxBigint

/-- What a writer can do: rows become visible that were inserted, and rows are inserted
    with new identifiers. -/
structure DbMove (db t : Database) : Prop where
  wellFormed : t.WellFormed
  seq : db.seq ≤ t.seq
  rows : ∀ row ∈ t.rows, row ∈ db.rows ∨ row ∈ db.pending
  pending : ∀ row ∈ t.pending, row ∈ db.pending ∨ db.seq < row.id

section Database

variable {db : Database} {owner : Nat} {tx : Transaction}

theorem tx_mem (h : db.tx owner = some tx) : tx ∈ db.txs ∧ tx.owner = owner :=
  ⟨mem_of_find?_eq_some h, by simpa using find?_some h⟩

/-- The open transactions are one of them and the others. -/
theorem perm_others (hnodup : (db.txs.map Transaction.owner).Nodup) (h : db.tx owner = some tx) :
    db.txs.Perm (tx :: db.others owner) := by
  rw [Database.tx] at h
  rw [Database.others]
  generalize db.txs = txs at hnodup h ⊢
  induction txs with
  | nil => cases h
  | cons first rest ih =>
    rw [map_cons, nodup_cons] at hnodup
    by_cases hfirst : first.owner = owner
    · -- nobody else has this owner
      rw [find?_cons_of_pos (by simpa using hfirst)] at h
      cases h
      have hrest : rest.filter (fun tx => tx.owner ≠ owner) = rest := by
        refine filter_eq_self.mpr fun other hother => decide_eq_true fun heq => ?_
        exact hnodup.1 (mem_map.mpr ⟨other, hother, heq.trans hfirst.symm⟩)
      rw [filter_cons_of_neg (by simpa using hfirst), hrest]
    · rw [find?_cons_of_neg (by simpa using hfirst)] at h
      rw [filter_cons_of_pos (by simpa using hfirst)]
      exact ((ih hnodup.2 h).cons first).trans (Perm.swap ..)

theorem others_sublist (db : Database) (owner : Nat) : (db.others owner).Sublist db.txs :=
  filter_sublist

theorem pending_others {txs : List Transaction} {seq : Nat} {rows : List EventRow}
    (htxs : txs = db.others owner) {row : EventRow}
    (h : row ∈ Database.pending ⟨seq, rows, txs⟩) : row ∈ db.pending := by
  obtain ⟨other, hother, hrow⟩ := mem_flatMap.mp h
  exact mem_flatMap.mpr ⟨other, (others_sublist db owner).subset (htxs ▸ hother), hrow⟩

theorem pending_replaced {new : Transaction} {seq : Nat} {rows : List EventRow} {row : EventRow}
    (h : row ∈ Database.pending ⟨seq, rows, db.others owner ++ [new]⟩) :
    row ∈ db.pending ∨ row ∈ new.inserted := by
  rw [Database.pending, flatMap_append, mem_append] at h
  rcases h with h | h
  · exact .inl (@pending_others _ _ _ seq rows rfl _ h)
  · exact .inr (by simpa using h)

theorem mem_pending (htx : db.tx owner = some tx) {row : EventRow} (h : row ∈ tx.inserted) :
    row ∈ db.pending := mem_flatMap.mpr ⟨tx, (tx_mem htx).1, h⟩

section

variable (hwell : db.WellFormed)
include hwell

/-- The rows of the table, of one transaction and of the others. -/
theorem perm_rows (htx : db.tx owner = some tx) :
    (db.rows ++ db.pending).Perm
      (db.rows ++ (tx.inserted ++ (db.others owner).flatMap Transaction.inserted)) :=
  ((perm_others hwell.owners htx).flatMap_right _).append_left _

variable {seq : Nat}

/-- **Replacing the rows of a transaction.**  The new rows come after the old ones in the
    sequence, and what is deleted is up to the transaction. -/
theorem wellFormed_replace (htx : db.tx owner = some tx)
    {new : Transaction} {fresh : List EventRow} (howner : new.owner = owner)
    (hinserted : new.inserted = tx.inserted ++ fresh) (hseq : db.seq ≤ seq)
    (hbound : seq ≤ maxBigint) (hids : (fresh.map EventRow.id).Nodup)
    (hfresh : ∀ row ∈ fresh, validateEvent row = true ∧ db.seq < row.id ∧ row.id ≤ seq) :
    Database.WellFormed ⟨seq, db.rows, db.others owner ++ [new]⟩ := by
  have hperm := perm_rows hwell htx
  -- all rows are the old ones and the fresh ones
  have hrows : (db.rows ++ Database.pending ⟨seq, db.rows, db.others owner ++ [new]⟩).Perm
      ((db.rows ++ db.pending) ++ fresh) := by
    refine List.Perm.trans ?_ (hperm.symm.append_right fresh)
    rw [Database.pending, flatMap_append, append_assoc]
    refine List.Perm.append_left _ ?_
    simp only [flatMap_cons, flatMap_nil, append_nil, hinserted]
    refine perm_append_comm.trans ?_
    rw [append_assoc, append_assoc]
    exact List.Perm.append_left _ perm_append_comm
  refine ⟨?_, ?_, fun row hrow => ?_, hbound⟩
  · have howners :=
      ((perm_others hwell.owners htx).map Transaction.owner).nodup_iff.mp hwell.owners
    rw [map_append]
    refine (perm_append_comm.nodup_iff).mpr ?_
    rw [map_cons, (tx_mem htx).2] at howners
    simpa [howner] using howners
  · rw [(hrows.map EventRow.id).nodup_iff, map_append]
    refine hwell.ids.append hids fun id hold hnew => ?_
    obtain ⟨row, hrow, rfl⟩ := mem_map.mp hold
    obtain ⟨row', hrow', hid⟩ := mem_map.mp hnew
    have hle := (hwell.valid row hrow).2
    have hlt := (hfresh row' hrow').2.1
    omega
  · rcases mem_append.mp (hrows.mem_iff.mp hrow) with hrow | hrow
    · exact ⟨(hwell.valid row hrow).1, le_trans (hwell.valid row hrow).2 hseq⟩
    · exact ⟨(hfresh row hrow).1, (hfresh row hrow).2.2⟩

/-- Fewer transactions, and rows that were there or pending in the one that is gone. -/
theorem wellFormed_end {rows all : List EventRow} (hseq : db.seq ≤ seq)
    (hbound : seq ≤ maxBigint)
    (hsub : (rows ++ (db.others owner).flatMap Transaction.inserted).Sublist all)
    (hperm : all.Perm (db.rows ++ db.pending)) :
    Database.WellFormed ⟨seq, rows, db.others owner⟩ := by
  refine ⟨hwell.owners.sublist ((others_sublist db owner).map _), ?_,
    fun row hrow => ?_, hbound⟩
  · exact (((hperm.map EventRow.id).nodup_iff).mpr hwell.ids).sublist (hsub.map _)
  · obtain ⟨hvalid, hle⟩ := hwell.valid row (hperm.mem_iff.mp (hsub.subset hrow))
    exact ⟨hvalid, le_trans hle hseq⟩

end

theorem pending_sublist (db : Database) (owner : Nat) :
    ((db.others owner).flatMap Transaction.inserted).Sublist db.pending := by
  rw [Database.pending, flatMap_def, flatMap_def]
  exact ((others_sublist db owner).map _).flatten

/-! ### Moves of the writers -/

section

variable (hwell : db.WellFormed)
include hwell

theorem DbMove.refl : DbMove db db := ⟨hwell, le_rfl, fun _ h => .inl h, fun _ h => .inl h⟩

/-- A transaction begins. -/
theorem move_begin (owner : Nat) (writer : Writer) : DbMove db (db.begin owner writer) := by
  rw [Database.begin]
  split
  · next hfree =>
      have hpending : Database.pending { db with txs := db.txs ++ [⟨owner, writer, [], []⟩] }
          = db.pending := by simp [Database.pending]
      refine ⟨⟨?_, ?_, ?_, hwell.seq⟩, le_rfl, fun _ h => .inl h, fun row h => .inl ?_⟩
      · rw [map_append, nodup_append]
        refine ⟨hwell.owners, nodup_singleton _, fun a ha b hb hab => ?_⟩
        obtain ⟨tx, htx, rfl⟩ := mem_map.mp ha
        have hnone := find?_eq_none.mp hfree.1 tx htx
        simp_all
      · rw [hpending]
        exact hwell.ids
      · rw [hpending]
        exact hwell.valid
      · rwa [hpending] at h
  · exact DbMove.refl hwell

/-- The transaction ends without a row of its own. -/
theorem move_abort (owner : Nat) {seq : Nat} (hseq : db.seq ≤ seq)
    (hbound : seq ≤ maxBigint) : DbMove db { db with seq := seq, txs := db.others owner } :=
  ⟨wellFormed_end hwell hseq hbound ((pending_sublist db owner).append_left _) (List.Perm.refl _),
    hseq, fun _ h => .inl h, fun _ h => .inl (pending_others rfl h)⟩

/-- A row is inserted under the next number. -/
theorem move_insert (owner : Nat) (eventType : EventType)
    (payload : String) : DbMove db (db.insert owner eventType payload) := by
  rw [Database.insert]
  cases htx : db.tx owner with
  | none => exact DbMove.refl hwell
  | some tx =>
    dsimp only
    by_cases haccepted : db.seq < maxBigint ∧ payloadCheck payload = true
    · rw [if_pos haccepted]
      -- the row is the only fresh one, whether or not the window is pruned
      have hfresh :
          ∀ row ∈ [(⟨db.seq + 1, tx.writer.chainID, eventType, payload⟩ : EventRow)],
          validateEvent row = true ∧ db.seq < row.id ∧ row.id ≤ db.seq + 1 := by
        intro row hrow
        rw [mem_singleton] at hrow
        rw [hrow]
        exact ⟨by simp [validateEvent, haccepted.2], Nat.lt_succ_self _, le_rfl⟩
      have hinserted : ∀ written : Transaction,
          written.inserted
            = tx.inserted ++ [⟨db.seq + 1, tx.writer.chainID, eventType, payload⟩] →
          written.owner = tx.owner →
          DbMove db { db with seq := db.seq + 1, txs := db.others owner ++ [written] } := by
        intro written hwritten howner
        refine ⟨wellFormed_replace hwell htx (howner.trans (tx_mem htx).2) hwritten
          (Nat.le_succ _) haccepted.1 (by simp) hfresh, Nat.le_succ _, fun _ h => .inl h,
          fun row hrow => ?_⟩
        rcases pending_replaced hrow with hrow | hrow
        · exact .inl hrow
        · rw [hwritten, mem_append] at hrow
          rcases hrow with hrow | hrow
          · exact .inl (mem_pending htx hrow)
          · exact .inr (hfresh row hrow).2.1
      by_cases hnames : eventType = .names
      · simp only [if_pos hnames]
        exact hinserted _ rfl rfl
      · simp only [if_neg hnames]
        exact hinserted _ rfl rfl
    · rw [if_neg haccepted]
      exact move_abort hwell owner (le_min (Nat.le_succ _) hwell.seq) (min_le_right _ _)

/-- Old rows are pruned. -/
theorem move_pruneWindow (replayLimit owner : Nat) :
    DbMove db (db.pruneWindow replayLimit owner) := by
  rw [Database.pruneWindow]
  cases htx : db.tx owner with
  | none => exact DbMove.refl hwell
  | some tx =>
    cases hwriter : tx.writer with
    | report chainID =>
      simp only [hwriter]
      refine ⟨wellFormed_replace hwell htx
        (tx_mem htx).2 (append_nil _).symm le_rfl hwell.seq nodup_nil (by simp),
        le_rfl, fun _ h => .inl h, fun row hrow => ?_⟩
      rcases pending_replaced hrow with hrow | hrow
      · exact .inl hrow
      · exact .inl (mem_pending htx hrow)
    | canonical chainID | publication chainID =>
      simp only [hwriter]
      exact DbMove.refl hwell

/-- The rows of a transaction become visible. -/
theorem move_commit (owner : Nat) : DbMove db (db.commit owner) := by
  rw [Database.commit]
  cases htx : db.tx owner with
  | none => exact DbMove.refl hwell
  | some tx =>
    have hsub : (db.sees tx ++ (db.others owner).flatMap Transaction.inserted).Sublist
        (db.rows ++ (tx.inserted ++ (db.others owner).flatMap Transaction.inserted)) := by
      rw [← append_assoc]
      exact filter_sublist.append_right _
    refine ⟨wellFormed_end hwell le_rfl hwell.seq hsub (perm_rows hwell htx).symm, le_rfl,
      fun row hrow => ?_, fun _ h => .inl (pending_others rfl h)⟩
    rcases mem_append.mp (mem_of_mem_filter hrow) with hrow | hrow
    · exact .inl hrow
    · exact .inr (mem_pending htx hrow)

end

end Database

/-! ## The relay -/

/-- The rest of the batch. -/
def Phase.batch : Phase → List EventRow
  | .publishing _ batch _ _ => batch
  | _ => []

/-- What is always true of the relay: it has published in order, it stands at the last
    published event, and what it has read was visible. -/
structure Inv (s : System) : Prop where
  wellFormed : s.db.WellFormed
  sorted : s.published.Pairwise fun a b => a.id < b.id
  below : ∀ event ∈ s.published, event.id ≤ s.after
  broker : s.broker.lastPublished = s.after
  drawn : s.after ≤ s.db.seq
  batch : s.phase.batch.Pairwise fun a b => a.id < b.id
  above : ∀ event ∈ s.phase.batch, s.after < event.id ∧ validateEvent event = true
  read : ∀ event, event ∈ s.published ∨ event ∈ s.phase.batch →
    event.id ≤ s.db.seq ∧ ∀ row ∈ s.db.pending, row.id ≠ event.id

section Relay

variable {config : Config} {s : System}

theorem ofChain_ids (config : Config) {db : Database} (hwell : db.WellFormed) :
    ((config.ofChain db.rows).map EventRow.id).Nodup := by
  have hrows := hwell.ids
  rw [map_append] at hrows
  exact nodup_filter_keys hrows.of_append_left _

/-- A poll answers with a page of the visible rows. -/
theorem poll_eq_page (hinv : Inv s) : config.poll s.db s.after
    = some (page EventRow.id s.after config.limit (config.ofChain s.db.rows)) := by
  have hle : ¬ maxBigint < s.after := not_lt.mpr (le_trans hinv.drawn hinv.wellFormed.seq)
  have hvalid : (page EventRow.id s.after config.limit (config.ofChain s.db.rows)).all
      validateEvent = true := by
    refine all_eq_true.mpr fun row hrow => ?_
    have hmem := mem_of_mem_filter (mem_of_page hrow).1
    exact (hinv.wellFormed.valid row (mem_append_left _ hmem)).1
  rw [Config.poll, if_neg hle, runtimeEventsFromRows, hvalid,
    decide_eq_true (page_pairwise (ofChain_ids config hinv.wellFormed))]
  rfl

/-- A move of a writer keeps what is true of the relay. -/
theorem Inv.db (hinv : Inv s) {t : Database} (hmove : DbMove s.db t) : Inv { s with db := t } :=
  { hinv with
    wellFormed := hmove.wellFormed
    drawn := le_trans hinv.drawn hmove.seq
    read := fun event hevent => by
      obtain ⟨hle, hapart⟩ := hinv.read event hevent
      refine ⟨le_trans hle hmove.seq, fun row hrow => ?_⟩
      rcases hmove.pending row hrow with hrow | hlt
      · exact hapart row hrow
      · omega }

/-- The phase of the relay may change where nothing is fetched. -/
theorem Inv.phase (hinv : Inv s) {phase : Phase} (hphase : phase.batch = []) :
    Inv { s with phase := phase } :=
  { hinv with
    batch := by rw [hphase]; exact List.Pairwise.nil
    above := by simp [hphase]
    read := fun event hevent => by
      rw [hphase] at hevent
      rcases hevent with hevent | hevent
      · exact hinv.read event (.inl hevent)
      · cases hevent }

variable {short whole : Bool} {rounds : Nat}

/-- A batch that was read from the table. -/
theorem Inv.polled (hinv : Inv s) : Inv { s with
      phase := .publishing rounds (page EventRow.id s.after config.limit (config.ofChain s.db.rows))
        short whole } :=
  { hinv with
    batch := page_pairwise (ofChain_ids config hinv.wellFormed)
    above := fun event hevent => by
      obtain ⟨hmem, habove⟩ := mem_of_page hevent
      have hrow := mem_append_left s.db.pending (mem_of_mem_filter hmem)
      exact ⟨habove, (hinv.wellFormed.valid event hrow).1⟩
    read := fun event hevent => by
      rcases hevent with hevent | hevent
      · exact hinv.read event (.inl hevent)
      · have hmem := mem_of_mem_filter (mem_of_page hevent).1
        refine ⟨(hinv.wellFormed.valid event (mem_append_left _ hmem)).2,
          fun row hrow heq => ?_⟩
        -- a visible row and a pending one have two identifiers
        have hids := hinv.wellFormed.ids
        rw [map_append, nodup_append] at hids
        exact hids.2.2 event.id (mem_map_of_mem hmem) row.id (mem_map_of_mem hrow) heq.symm }

variable {event : EventRow} {broker : Broker}

/-- The broker passes on an event above the last one. -/
theorem publishStored_above (replayLimit : Nat) (h : broker.lastPublished < event.id) :
    (broker.publishStored replayLimit event).1 = true
      ∧ (broker.publishStored replayLimit event).2.lastPublished = event.id := by
  rw [Broker.publishStored, if_neg (not_le.mpr h)]
  exact ⟨rfl, rfl⟩

variable {rest : List EventRow}

/-- The relay publishes the next event and moves its cursor. -/
theorem publish_cons (config : Config) (hinv : Inv s)
    (hphase : s.phase = .publishing rounds (event :: rest) short whole) :
    s.publish config true = { s with
      after := event.id
      phase := .publishing rounds rest short whole
      broker := (s.broker.publishStored config.replayLimit event).2
      published := s.published ++ [event] } := by
  obtain ⟨habove, hvalid⟩ := hinv.above event (by rw [hphase]; exact mem_cons_self)
  obtain ⟨hpassed, -⟩ := publishStored_above config.replayLimit (hinv.broker ▸ habove)
  have haccepted : ¬ (event.id ≤ s.after ∨ validateEvent event = false ∨ true = false) := by
    simp [habove, hvalid]
  simp only [System.publish, hphase, if_neg haccepted, hpassed, if_true]

/-- What is true of the relay after an event is published. -/
theorem Inv.published (hinv : Inv s)
    (hphase : s.phase = .publishing rounds (event :: rest) short whole)
    (hbroker : broker.lastPublished = event.id) :
    Inv { s with
      after := event.id
      phase := .publishing rounds rest short whole
      broker := broker
      published := s.published ++ [event] } := by
  have hbatch : s.phase.batch = event :: rest := by rw [hphase]; rfl
  have hsorted := hinv.batch
  rw [hbatch, pairwise_cons] at hsorted
  have habove := (hinv.above event (hbatch ▸ mem_cons_self)).1
  refine ⟨hinv.wellFormed, ?_, ?_, hbroker, ?_, hsorted.2, ?_, ?_⟩
  · refine pairwise_append.mpr ⟨hinv.sorted, pairwise_singleton _ _, ?_⟩
    intro a ha b hb
    rw [mem_singleton.mp hb]
    exact lt_of_le_of_lt (hinv.below a ha) habove
  · intro a ha
    rcases mem_append.mp ha with ha | ha
    · exact le_of_lt (lt_of_le_of_lt (hinv.below a ha) habove)
    · rw [mem_singleton.mp ha]
  · exact (hinv.read event (.inr (hbatch ▸ mem_cons_self))).1
  · intro a ha
    exact ⟨hsorted.1 a ha, (hinv.above a (hbatch ▸ mem_cons_of_mem _ ha)).2⟩
  · intro a ha
    refine hinv.read a ?_
    rcases ha with ha | ha
    · rcases mem_append.mp ha with ha | ha
      · exact .inl ha
      · rw [mem_singleton.mp ha]
        exact .inr (hbatch ▸ mem_cons_self)
    · exact .inr (hbatch ▸ mem_cons_of_mem _ ha)

end Relay

/-! ## Steps -/

/-- The ways in which the system moves. -/
inductive Move (config : Config) (s : System) : System → Prop where
  | idle : Move config s s
  | writer (db : Database) (move : DbMove s.db db) : Move config s { s with db := db }
  | start (whole : Bool) (phase : s.phase = .idle whole) :
      Move config s { s with phase := .polling drainRounds }
  | stop (phase : ∀ whole, s.phase ≠ .idle whole) :
      Move config s { s with phase := .idle false }
  | polled (rounds : Nat) (phase : s.phase = .polling (rounds + 1)) (short : Bool) :
      Move config s { s with
        phase := .publishing rounds
          (page EventRow.id s.after config.limit (config.ofChain s.db.rows)) short
          (decide ((page EventRow.id s.after config.limit (config.ofChain s.db.rows)).length
            < config.limit)) }
  | again (rounds : Nat) (short whole : Bool)
      (phase : s.phase = .publishing rounds [] short whole) :
      Move config s { s with phase := .polling rounds }
  | ended (rounds : Nat) (short whole : Bool)
      (phase : s.phase = .publishing rounds [] short whole) :
      Move config s { s with phase := .idle whole }
  | published (rounds : Nat) (event : EventRow) (rest : List EventRow) (short whole : Bool)
      (broker : Broker) (phase : s.phase = .publishing rounds (event :: rest) short whole)
      (passed : broker.lastPublished = event.id) :
      Move config s { s with
        after := event.id
        phase := .publishing rounds rest short whole
        broker := broker
        published := s.published ++ [event] }

section Steps

variable {config : Config} {s t : System}

/-- A poll moves no cursor. -/
theorem move_poll (hinv : Inv s) (answered : Bool) : Move config s (s.poll config answered) := by
  rw [System.poll]
  cases hphase : s.phase with
  | idle whole => exact .idle
  | publishing rounds batch short whole => exact .idle
  | polling rounds =>
    cases rounds with
    | zero => exact .stop (by simp [hphase])
    | succ rounds =>
      cases answered with
      | false => exact .stop (by simp [hphase])
      | true =>
        simp only [if_true, poll_eq_page hinv]
        exact .polled rounds hphase _

/-- A publication is of the next event. -/
theorem move_publish (hinv : Inv s) (invalidated : Bool) :
    Move config s (s.publish config invalidated) := by
  cases hphase : s.phase with
  | idle whole | polling rounds =>
    simp only [System.publish, hphase]
    exact .idle
  | publishing rounds batch short whole =>
    cases batch with
    | nil =>
      cases short with
      | true =>
        simp only [System.publish, hphase, if_true]
        exact .ended rounds true whole hphase
      | false =>
        simp only [System.publish, hphase]
        exact .again rounds false whole hphase
    | cons event rest =>
      cases invalidated with
      | false =>
        simp only [System.publish, hphase, or_true, if_true]
        exact .stop (by simp [hphase])
      | true =>
        have habove := (hinv.above event (by rw [hphase]; exact mem_cons_self)).1
        rw [publish_cons config hinv hphase]
        exact .published rounds event rest short whole _ hphase
          (publishStored_above config.replayLimit (hinv.broker ▸ habove)).2

/-- **Every step is one of these moves.** -/
theorem Inv.move (config : Config) (hinv : Inv s) (action : Action) :
    Move config s (s.step config action) := by
  have hwell := hinv.wellFormed
  cases action with
  | begin owner writer => exact .writer _ (move_begin hwell owner writer)
  | insert owner eventType payload => exact .writer _ (move_insert hwell owner eventType payload)
  | prune owner => exact .writer _ (move_pruneWindow hwell config.replayLimit owner)
  | commit owner => exact .writer _ (move_commit hwell owner)
  | rollback owner => exact .writer _ (move_abort hwell owner le_rfl hwell.seq)
  | drain =>
    simp only [System.step]
    cases hphase : s.phase with
    | idle whole => exact .start whole hphase
    | polling rounds | publishing rounds batch short whole => exact .idle
  | poll answered => exact move_poll hinv answered
  | publish invalidated => exact move_publish hinv invalidated

/-- **A step keeps the invariant.** -/
theorem Inv.step (hinv : Inv s) (h : Move config s t) : Inv t := by
  cases h with
  | idle => exact hinv
  | writer db move => exact hinv.db move
  | start whole phase | stop phase => exact hinv.phase rfl
  | polled rounds phase short => exact hinv.polled
  | again rounds short whole phase | ended rounds short whole phase => exact hinv.phase rfl
  | published rounds event rest short whole broker phase passed => exact hinv.published phase passed

/-! ## Delivery -/

/-- Everything the relay has read lies below the event. -/
def Above (s : System) (event : EventRow) : Prop :=
  s.after < event.id ∧ ∀ other ∈ s.phase.batch, other.id < event.id

/-- The event is published, about to be published, or can still be read. -/
def Due (s : System) (event : EventRow) : Prop :=
  event ∈ s.published ∨ event ∈ s.phase.batch ∨ Above s event

/-- The relay has read the event: it is published or in the batch. -/
def HasRead (s : System) (event : EventRow) : Prop :=
  event ∈ s.published ∨ event ∈ s.phase.batch

instance (s : System) (event : EventRow) : Decidable (HasRead s event) :=
  inferInstanceAs (Decidable (event ∈ s.published ∨ event ∈ s.phase.batch))

variable {event : EventRow}

section

variable (hinv : Inv s) (h : Due s event)
include hinv h

/-- An event that is in reach stays so when the batch is dropped. -/
theorem Due.dropped {phase : Phase}
    (hphase : phase.batch = []) : Due { s with phase := phase } event := by
  rcases h with h | h | h
  · exact .inl h
  · exact .inr (.inr ⟨(hinv.above event h).1, by simp [hphase]⟩)
  · exact .inr (.inr ⟨h.1, by simp [hphase]⟩)

/-- An event that is in reach, and visible until it is read, is on the page of a poll, or
    above a full one. -/
theorem Due.polled (hbatch : s.phase.batch = [])
    (hvisible : HasRead s event ∨ event ∈ config.ofChain s.db.rows) :
    event ∈ s.published
      ∨ event ∈ page EventRow.id s.after config.limit (config.ofChain s.db.rows)
      ∨ (page EventRow.id s.after config.limit (config.ofChain s.db.rows)).length = config.limit
        ∧ s.after < event.id
        ∧ ∀ other ∈ page EventRow.id s.after config.limit (config.ofChain s.db.rows),
          other.id < event.id := by
  rw [HasRead, hbatch] at hvisible
  rcases h with h | h | h
  · exact .inl h
  · rw [hbatch] at h
    cases h
  rcases hvisible with (hread | hread) | hvisible
  · exact .inl hread
  · cases hread
  · rcases page_reaches config.limit hvisible h.1 with hpage | ⟨hfull, hle⟩
    · exact .inr (.inl hpage)
    by_cases hmem : event ∈ page EventRow.id s.after config.limit (config.ofChain s.db.rows)
    · exact .inr (.inl hmem)
    refine .inr (.inr ⟨hfull, h.1, fun other hother => lt_of_le_of_ne (hle other hother) ?_⟩)
    -- another row with the identifier would be the event itself
    intro heq
    have hids := hinv.wellFormed.ids
    rw [map_append] at hids
    have hsame := inj_on_of_nodup_map hids.of_append_left
      (mem_of_mem_filter (mem_of_page hother).1) (mem_of_mem_filter hvisible) heq
    exact hmem (hsame ▸ hother)

/-- **An event in reach stays in reach** if it is visible until it is read. -/
theorem Due.step
    (hvisible : HasRead s event ∨ event ∈ config.ofChain s.db.rows) (hmove : Move config s t) :
    Due t event := by
  cases hmove with
  | idle => exact h
  | writer db move => exact h
  | start whole phase | stop phase | again rounds short whole phase
  | ended rounds short whole phase => exact h.dropped hinv rfl
  | polled rounds phase short =>
    rcases h.polled hinv (by rw [phase]; rfl) hvisible with h | h | ⟨-, h⟩
    · exact .inl h
    · exact .inr (.inl h)
    · exact .inr (.inr h)
  | published rounds first rest short whole broker phase passed =>
    rcases h with h | h | h
    · exact .inl (mem_append_left _ h)
    · rw [phase] at h
      rcases mem_cons.mp h with rfl | h
      · exact .inl (mem_append_right _ (mem_singleton.mpr rfl))
      · exact .inr (.inl h)
    · have hbatch : s.phase.batch = first :: rest := by rw [phase]; rfl
      refine .inr (.inr ⟨h.2 first (hbatch ▸ mem_cons_self), fun other hother => ?_⟩)
      exact h.2 other (hbatch ▸ mem_cons_of_mem _ hother)

end

/-- In a drain that began when the event was in reach: once a poll has read to the end, the
    event is on its batch or published. -/
def Caught (s : System) (event : EventRow) : Prop := Due s event ∧ match s.phase with
    | .idle true => event ∈ s.published
    | .publishing _ batch _ true => event ∈ s.published ∨ event ∈ batch
    | _ => True

/-- **A drain catches what is visible** until it is read. -/
theorem Caught.step (hinv : Inv s) (h : Caught s event)
    (hvisible : HasRead s event ∨ event ∈ config.ofChain s.db.rows)
    (hmove : Move config s t) : Caught t event := by
  refine ⟨h.1.step hinv hvisible hmove, ?_⟩
  have hphase := h.2
  cases hmove with
  | idle => exact hphase
  | writer db move => exact hphase
  | start whole phase => trivial
  | stop phase => trivial
  | again rounds short whole phase => trivial
  | ended rounds short whole phase =>
    cases whole with
    | false => trivial
    | true =>
      rw [phase] at hphase
      rcases hphase with hphase | hphase
      · exact hphase
      · cases hphase
  | polled rounds phase short =>
    have hbatch : s.phase.batch = [] := by rw [phase]; rfl
    rcases h.1.polled hinv hbatch hvisible with hevent | hevent | ⟨hfull, -⟩
    · simp only
      split <;> simp_all
    · simp only
      split <;> simp_all
    · simp only
      -- a full page may hold only earlier events, and the drain goes on
      rw [hfull, decide_eq_false (lt_irrefl _)]
      trivial
  | published rounds first rest short whole broker phase passed =>
    cases whole with
    | false => trivial
    | true =>
      rw [phase] at hphase
      rcases hphase with hphase | hphase
      · exact .inl (mem_append_left _ hphase)
      · rcases mem_cons.mp hphase with rfl | hphase
        · exact .inl (mem_append_right _ (mem_singleton.mpr rfl))
        · exact .inr hphase

/-! ## Loss -/

/-- The relay has passed the identifier without the event. -/
def Passed (s : System) (event : EventRow) : Prop := event.id ≤ s.after ∧ event ∉ s.published

/-- **An event that was passed is never published.** -/
theorem Passed.step (hinv : Inv s) (h : Passed s event)
    (hmove : Move config s t) : Passed t event := by
  cases hmove with
  | idle => exact h
  | writer db move => exact h
  | start whole phase => exact h
  | stop phase => exact h
  | again rounds short whole phase => exact h
  | ended rounds short whole phase => exact h
  | polled rounds phase short => exact h
  | published rounds first rest short whole broker phase passed =>
    have habove := (hinv.above first (by rw [phase]; exact mem_cons_self)).1
    refine ⟨le_trans h.1 (le_of_lt habove), fun hmem => ?_⟩
    rcases mem_append.mp hmem with hmem | hmem
    · exact h.2 hmem
    · rw [mem_singleton.mp hmem] at h
      exact absurd h.1 (not_le.mpr habove)

end Steps

/-! ## A drain that nobody disturbs -/

/-- The next action of the relay, when every query and invalidation succeeds. -/
def System.next (s : System) : Action := match s.phase with
  | .idle _ => .drain
  | .polling _ => .poll true
  | .publishing _ _ _ _ => .publish true

/-- The relay alone. -/
def System.relay (config : Config) (s : System) : System := s.step config s.next

section Alone

variable {config : Config} {s : System}

section

variable (config : Config)

/-- The relay writes nothing. -/
theorem relay_db (s : System) : (s.relay config).db = s.db := by
  rw [System.relay, System.next]
  cases hphase : s.phase with
  | idle whole => simp only [System.step, hphase]
  | polling rounds =>
    simp only [System.step, System.poll, hphase]
    cases rounds with
    | zero => rfl
    | succ rounds => cases config.poll s.db s.after <;> rfl
  | publishing rounds batch short whole =>
    simp only [System.step, System.publish, hphase]
    cases batch with
    | nil => cases short <;> rfl
    | cons event rest =>
      simp only
      split <;> rfl

theorem relay_iterate_db (n : Nat) (s : System) : ((System.relay config)^[n] s).db = s.db := by
  induction n generalizing s with
  | zero => rfl
  | succ n ih => rw [iterate_succ_apply, ih, relay_db]

theorem relay_iterate_inv (hinv : Inv s) (n : Nat) : Inv ((System.relay config)^[n] s) := by
  induction n generalizing s with
  | zero => exact hinv
  | succ n ih => exact ih (hinv.step (hinv.move config s.next))

/-- A relay that runs on publishes its batch. -/
theorem relay_batch (hinv : Inv s) {rounds : Nat} {batch : List EventRow} {short whole : Bool}
    (hphase : s.phase = .publishing rounds batch short whole) :
    ((System.relay config)^[batch.length] s).phase = .publishing rounds [] short whole
      ∧ ((System.relay config)^[batch.length] s).after
        = (batch.getLast?.map EventRow.id).getD s.after := by
  induction batch generalizing s with
  | nil => exact ⟨hphase, rfl⟩
  | cons event rest ih =>
    have hnext : s.relay config = s.publish config true := by
      rw [System.relay, System.next, hphase]
      rfl
    have hstep := publish_cons config hinv hphase
    have hinv' := hinv.step (hinv.move config s.next)
    rw [length_cons, iterate_succ_apply]
    obtain ⟨hend, hafter⟩ := ih (s := s.relay config) hinv' (by rw [hnext, hstep])
    refine ⟨hend, hafter.trans ?_⟩
    rw [hnext, hstep, getLast?_cons]
    cases rest.getLast? <;> rfl

end

/-- Rows above the cursor. -/
def System.waiting (config : Config) (s : System) : Nat :=
  ((config.ofChain s.db.rows).filter fun row => s.after < row.id).length

/-- **A drain reaches the end** if the rounds that are left can read what is waiting. -/
theorem relay_polls (hlimit : config.batchSize ≤ config.replayLimit) (rounds : Nat) (hinv : Inv s)
    (hphase : s.phase = .polling rounds)
    (hwaiting : s.waiting config < rounds * config.limit) :
    ∃ n, ((System.relay config)^[n] s).phase = .idle true := by
  induction rounds generalizing s with
  | zero => simp at hwaiting
  | succ rounds ih =>
    have hsize : config.limit = config.batchSize := by
      rw [Config.limit, boundedLimit, if_neg]
      have := config.batch_bounds.1
      omega
    have hids := ofChain_ids config hinv.wellFormed
    -- the poll
    have hpolled : s.relay config = { s with
        phase := .publishing rounds
          (page EventRow.id s.after config.limit (config.ofChain s.db.rows))
          (decide ((page EventRow.id s.after config.limit (config.ofChain s.db.rows)).length
            < config.batchSize))
          (decide ((page EventRow.id s.after config.limit (config.ofChain s.db.rows)).length
            < config.limit)) } := by
      simp only [System.relay, System.next, hphase, System.step, System.poll, if_true,
        poll_eq_page hinv]
    have hinvPolled : Inv (s.relay config) := hinv.step (hinv.move config s.next)
    have hphasePolled := congrArg System.phase hpolled
    obtain ⟨hend, hafter⟩ := relay_batch config hinvPolled hphasePolled
    set batch := page EventRow.id s.after config.limit (config.ofChain s.db.rows) with hbatch
    have hdb := relay_iterate_db config batch.length (s.relay config)
    have hinvEnd := relay_iterate_inv config hinvPolled batch.length
    set t := (System.relay config)^[batch.length] (s.relay config) with ht
    by_cases hshort : batch.length < config.limit
    · -- a short batch ends the drain
      rw [decide_eq_true hshort, decide_eq_true (hsize ▸ hshort)] at hend
      refine ⟨batch.length + 1 + 1, ?_⟩
      rw [iterate_succ_apply, iterate_succ_apply', ← ht]
      simp only [System.relay, System.next, hend, System.step, System.publish, if_true]
    · -- a full one leaves fewer rows
      rw [decide_eq_false hshort, decide_eq_false (hsize ▸ hshort)] at hend
      have hfull : batch.length = config.limit :=
        le_antisymm (length_page_le _ _ _) (not_lt.mp hshort)
      have hpos : 0 < config.limit := hsize ▸ config.batch_bounds.1
      obtain ⟨last, hlast⟩ : ∃ last, batch.getLast? = some last := by
        cases h : batch.getLast? with
        | none =>
          rw [getLast?_eq_none_iff] at h
          rw [h] at hfull
          exact absurd hfull (Nat.ne_of_lt hpos)
        | some last => exact ⟨last, rfl⟩
      have hcount := length_after_page hids (hbatch ▸ hlast)
      rw [hlast] at hafter
      have hagain : (t.relay config).phase = .polling rounds
          ∧ (t.relay config).after = last.id := by
        simp only [System.relay, System.next, hend, System.step, System.publish]
        exact ⟨rfl, hafter⟩
      have hwaiting' : (t.relay config).waiting config < rounds * config.limit := by
        rw [System.waiting, hagain.2, relay_db, hdb, relay_db]
        rw [System.waiting, ← hcount, ← hbatch, hfull, Nat.succ_mul] at hwaiting
        omega
      obtain ⟨n, hn⟩ := ih (hinvEnd.step (hinvEnd.move config t.next)) hagain.1 hwaiting'
      refine ⟨n + 1 + batch.length + 1, ?_⟩
      rw [iterate_succ_apply, iterate_add_apply, iterate_succ_apply]
      exact hn

/-- **A drain that nobody disturbs publishes what is visible**, up to 64 batches. -/
theorem relay_drains (hlimit : config.batchSize ≤ config.replayLimit) (hinv : Inv s)
    {whole : Bool} (hphase : s.phase = .idle whole)
    (hwaiting : s.waiting config < drainRounds * config.limit) :
    ∃ n, ∀ event ∈ config.ofChain s.db.rows, s.after < event.id →
      event ∈ ((System.relay config)^[n] s).published := by
  have hstart : s.relay config = { s with phase := .polling drainRounds } := by
    simp only [System.relay, System.next, hphase, System.step]
  have hinvStart : Inv (s.relay config) := hinv.step (hinv.move config s.next)
  obtain ⟨n, hn⟩ := relay_polls hlimit drainRounds hinvStart (by rw [hstart])
    (by rw [hstart]; exact hwaiting)
  refine ⟨n + 1, fun event hevent habove => ?_⟩
  have hcaught : Caught (s.relay config) event := by
    rw [hstart]
    exact ⟨.inr (.inr ⟨habove, by simp [Phase.batch]⟩), trivial⟩
  have hkept : ∀ m, Caught ((System.relay config)^[m] (s.relay config)) event := by
    intro m
    induction m with
    | zero => exact hcaught
    | succ m ih =>
      rw [iterate_succ_apply']
      have hinvAt := relay_iterate_inv config hinvStart m
      refine ih.step hinvAt ?_ (hinvAt.move config _)
      rw [relay_iterate_db, relay_db]
      exact .inr hevent
  have hend := (hkept n).2
  rw [hn] at hend
  rw [iterate_succ_apply]
  exact hend

end Alone

/-! ## Runs -/

section Runs

variable {config : Config} {actions : List Action}

theorem inv_initial : Inv System.initial where
  wellFormed :=
    ⟨nodup_nil, nodup_nil, by simp [System.initial, Database.pending], Nat.zero_le _⟩
  sorted := List.Pairwise.nil
  below := by simp [System.initial]
  broker := rfl
  drawn := le_rfl
  batch := List.Pairwise.nil
  above := by simp [System.initial, Phase.batch]
  read := by simp [System.initial, Phase.batch]

/-- **The invariant holds at every moment of a run.** -/
theorem inv_at (i : Nat) (hi : i ≤ actions.length) : Inv (systemAt config actions i) :=
  stateAt_induction (System.step config) System.initial actions (P := fun _ s => Inv s) (j := 0)
    inv_initial (fun _ action _ _ h => h.step (h.move config action)) i
    (Nat.zero_le i) hi

variable {i : Nat}

theorem move_at (hi : i < actions.length) :
    Move config (systemAt config actions i) (systemAt config actions (i + 1)) := by
  have hstep : systemAt config actions (i + 1)
      = (systemAt config actions i).step config actions[i] :=
    stateAt_succ (System.step config) System.initial actions (getElem?_eq_getElem hi)
  rw [hstep]
  exact (inv_at i (le_of_lt hi)).move config actions[i]

theorem kept_along {P : Nat → System → Prop} {k : Nat} (hik : i ≤ k)
    (hk : k ≤ actions.length)
    (hbase : P i (systemAt config actions i))
    (hstep : ∀ m, i ≤ m → m < k → P m (systemAt config actions m) →
      P (m + 1) (systemAt config actions (m + 1))) : P k (systemAt config actions k) := by
  induction k, hik using Nat.le_induction with
  | base => exact hbase
  | succ k hik ih =>
    refine hstep k hik (Nat.lt_succ_self k) (ih (by omega) fun m him hmk => ?_)
    exact hstep m him (by omega)

/-- The transaction of the event commits with this action. -/
structure Commits (config : Config) (actions : List Action) (i : Nat) (event : EventRow) :
    Prop where
  action : ∃ owner, actions[i]? = some (.commit owner)
  before : event ∈ (systemAt config actions i).db.pending
  after : event ∈ (systemAt config actions (i + 1)).db.rows
  chain : event.chainID = config.chainID

/-- A drain begins at `j`, and at `k` the relay has read the table to its end. -/
structure Drains (config : Config) (actions : List Action) (j k : Nat) : Prop where
  start : actions[j]? = some .drain
  idle : ∃ whole, (systemAt config actions j).phase = .idle whole
  later : j < k
  bound : k ≤ actions.length
  whole : (systemAt config actions k).phase = .idle true

variable {event : EventRow}

/-- A drain after the commit publishes the event if it is visible until it is read. -/
theorem delivered {j k : Nat} (hcommit : Commits config actions i event)
    (habove : Above (systemAt config actions i) event) (hij : i < j)
    (hdrain : Drains config actions j k)
    (hvisible : ∀ m ≤ k, i < m → HasRead (systemAt config actions m) event
      ∨ event ∈ (systemAt config actions m).db.rows) :
    event ∈ (systemAt config actions k).published := by
  have hjk := hdrain.later
  have hbound := hdrain.bound
  have hchain : ∀ m, i < m → m ≤ k → HasRead (systemAt config actions m) event
      ∨ event ∈ config.ofChain (systemAt config actions m).db.rows := fun m him hmk =>
    (hvisible m hmk him).imp_right fun hrow =>
      mem_filter.mpr ⟨hrow, decide_eq_true hcommit.chain⟩
  -- the commit itself moves only the table
  have hdue : Due (systemAt config actions (i + 1)) event := by
    obtain ⟨owner, haction⟩ := hcommit.action
    have hstep : systemAt config actions (i + 1)
        = (systemAt config actions i).step config (.commit owner) :=
      stateAt_succ (System.step config) System.initial actions haction
    rw [hstep]
    exact .inr (.inr habove)
  have hdueAt : Due (systemAt config actions j) event :=
    kept_along (P := fun _ s => Due s event) hij (by omega) hdue fun m him hmk h =>
      h.step (inv_at m (by omega)) (hchain m him (by omega)) (move_at (by omega))
  have hcaught : Caught (systemAt config actions (j + 1)) event := by
    obtain ⟨whole, hidle⟩ := hdrain.idle
    have hstep : systemAt config actions (j + 1) = (systemAt config actions j).step config .drain :=
      stateAt_succ (System.step config) System.initial actions hdrain.start
    rw [hstep]
    simp only [System.step, hidle]
    exact ⟨hdueAt.dropped (inv_at j (by omega)) rfl, trivial⟩
  have hend : Caught (systemAt config actions k) event :=
    kept_along (P := fun _ s => Caught s event) hjk hbound hcaught fun m him hmk h =>
      h.step (inv_at m (by omega)) (hchain m (by omega) (by omega)) (move_at (by omega))
  have hpublished := hend.2
  rw [hdrain.whole] at hpublished
  exact hpublished

/-- An event at or below the cursor when it commits is lost. -/
theorem lost (hcommit : Commits config actions i event)
    (hbelow : event.id ≤ (systemAt config actions i).after) (k : Nat) (hik : i ≤ k)
    (hk : k ≤ actions.length) : event ∉ (systemAt config actions k).published := by
  have hpassed : Passed (systemAt config actions i) event := by
    refine ⟨hbelow, fun hmem => ?_⟩
    exact ((inv_at i (by omega)).read event (.inl hmem)).2 event hcommit.before rfl
  exact (kept_along (P := fun _ s => Passed s event) hik hk hpassed fun m him hmk h =>
    h.step (inv_at m (by omega)) (move_at (by omega))).2

end Runs

/-- **What the relay delivers.**  In every state of every run events were published in
    strictly increasing order.  An event that lies above everything the relay has read when
    its transaction commits is published by the next drain that reads the table to its end
    if it is visible until it is read; an event at or below the cursor of the relay is
    never published.  A
    drain that nobody disturbs reads to the end if less than 64 batches are waiting. -/
theorem relay_delivers (config : Config) (actions : List Action) :
    (∀ i ≤ actions.length, (systemAt config actions i).published.Pairwise fun a b =>
      a.id < b.id)
    ∧ (∀ i event, Commits config actions i event →
      (Above (systemAt config actions i) event → ∀ j k, i < j → Drains config actions j k →
        (∀ m ≤ k, i < m → HasRead (systemAt config actions m) event
          ∨ event ∈ (systemAt config actions m).db.rows) →
          event ∈ (systemAt config actions k).published)
      ∧ (event.id ≤ (systemAt config actions i).after →
        ∀ k, i ≤ k → k ≤ actions.length →
          event ∉ (systemAt config actions k).published))
    ∧ ∀ i ≤ actions.length, ∀ whole, (systemAt config actions i).phase = .idle whole →
      config.batchSize ≤ config.replayLimit →
      (systemAt config actions i).waiting config < drainRounds * config.limit →
      ∃ n, ∀ event ∈ config.ofChain (systemAt config actions i).db.rows,
        (systemAt config actions i).after < event.id →
          event ∈ ((System.relay config)^[n] (systemAt config actions i)).published :=
  ⟨fun i hi => (inv_at i hi).sorted, fun _ _ hcommit =>
    ⟨fun habove _ _ hij hdrain hvisible => delivered hcommit habove hij hdrain hvisible,
      lost hcommit⟩,
    fun i hi _ hphase hlimit hwaiting => relay_drains hlimit (inv_at i hi) hphase hwaiting⟩

/-- The relay of chain 1 with the default sizes. -/
def exampleConfig : Config := ⟨1, 256, 256, by decide, by decide⟩

/-- A status report draws identifier 1 and a canonical commit draws 2 and commits first; the
    relay drains before and after the report commits. -/
def overtaken : List Action :=
  [.begin 1 (.report 1), .insert 1 .status "{}", .begin 2 (.canonical 1), .insert 2 .head "{}",
    .commit 2, .drain, .poll true, .publish true, .publish true, .prune 1, .commit 1, .drain,
    .poll true, .publish true]

/-- **The event of the report is lost**: it commits, stays visible, the relay reads the table
    to its end, and the event is not published. -/
theorem overtaken_report_lost : ∃ event : EventRow, Commits exampleConfig overtaken 10 event
      ∧ Drains exampleConfig overtaken 11 14
      ∧ (∀ m ≤ 14, 10 < m → event ∈ (systemAt exampleConfig overtaken m).db.rows)
      ∧ event ∉ (systemAt exampleConfig overtaken 14).published := by
  refine ⟨⟨1, 1, .status, "{}"⟩, ⟨⟨1, rfl⟩, ?_, ?_, rfl⟩,
    ⟨rfl, ⟨true, ?_⟩, ?_, ?_, ?_⟩, ?_, ?_⟩
  all_goals decide +kernel

/-- The same transactions in the order of their identifiers. -/
def inOrder : List Action :=
  [.begin 1 (.report 1), .insert 1 .status "{}", .commit 1, .begin 2 (.canonical 1),
    .insert 2 .head "{}", .commit 2, .drain, .poll true, .publish true, .publish true,
    .publish true]

theorem relay_delivers_in_order :
    (⟨2, 1, .head, "{}"⟩ : EventRow) ∈ (systemAt exampleConfig inOrder 11).published :=
  ((relay_delivers exampleConfig inOrder).2.1 5 ⟨2, 1, .head, "{}"⟩
    ⟨⟨2, rfl⟩, by decide +kernel, by decide +kernel, rfl⟩).1
    ⟨by decide +kernel, by decide +kernel⟩ 6 11 (by decide)
    ⟨rfl, ⟨false, by decide +kernel⟩, by decide, by decide, by decide +kernel⟩
    (by decide +kernel)

end Events
