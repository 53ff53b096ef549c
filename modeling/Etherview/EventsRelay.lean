import Etherview.Paging
import Etherview.Transact

/-! # The relay of runtime events

    `runtime_events` as transactions write it, and the tailer that publishes it to the
    broker of one API replica (`internal/events`).

    An identifier is drawn from the sequence when a row is inserted; the row becomes
    visible when its transaction commits.  Status reports serialize on one advisory lock
    and canonical commits on another, and publications of names on neither, so that two
    transactions may commit in the other order than they have drawn their identifiers.

    The relay keeps one number, the identifier of the last event it has published, and
    asks for the rows above it.  Its steps interleave with those of the writers.  The
    timestamps of events, which nothing here reads, and the subscribers of the broker are
    left out. -/

namespace Events

open Paging Transact

/-! ## Rows -/

/-- The types of events. -/
inductive EventType where
  | head
  | reorg
  | status
  | names
deriving DecidableEq, Repr

/-- `runtime_events`; the payload is the text of the stored value. -/
structure EventRow where
  id : Nat
  chainID : Nat
  eventType : EventType
  payload : String
deriving DecidableEq, Repr

/-- The bytes of a payload. -/
def maxEventPayloadBytes : Nat := 8192

/-- The largest value of a bigint. -/
def maxBigint : Nat := 9223372036854775807

/-- The CHECK of the payload; the text of a JSON value is not empty. -/
def payloadCheck (payload : String) : Bool :=
  decide (0 < payload.utf8ByteSize ∧ payload.utf8ByteSize ≤ maxEventPayloadBytes)

/-- `validateEvent`; the type is one of the four. -/
def validateEvent (event : EventRow) : Bool := decide (event.id ≠ 0) && payloadCheck event.payload

/-! ## Writers -/

/-- The transactions that write events of a chain: `RecordStatus`, the commits and reorgs of
    the repository, and everything else, such as publications of names. -/
inductive Writer where
  | report (chainID : Nat)
  | canonical (chainID : Nat)
  | publication (chainID : Nat)
deriving DecidableEq, Repr

/-- The advisory locks they take first. -/
inductive Lock where
  | syncStatus (chainID : Nat)
  | chain (chainID : Nat)
deriving DecidableEq, Repr

/-- The chain that a writer writes for. -/
def Writer.chainID : Writer → Nat
  | .report chainID => chainID
  | .canonical chainID => chainID
  | .publication chainID => chainID

/-- The advisory lock that a writer takes first; a publication takes none. -/
def Writer.lock : Writer → Option Lock
  | .report chainID => some (.syncStatus chainID)
  | .canonical chainID => some (.chain chainID)
  | .publication _ => none

/-- An open transaction: the rows it has inserted and the identifiers it has deleted. -/
structure Transaction where
  owner : Nat
  writer : Writer
  inserted : List EventRow
  deleted : List Nat
deriving DecidableEq, Repr

/-- The table, its sequence and the open transactions. -/
structure Database where
  seq : Nat
  rows : List EventRow
  txs : List Transaction
deriving DecidableEq, Repr

/-- The rows a statement of the transaction sees: the committed ones and its own. -/
def Database.sees (db : Database) (tx : Transaction) : List EventRow :=
  (db.rows ++ tx.inserted).filter fun row => row.id ∉ tx.deleted

/-- The identifier at an offset from the newest one, or zero. -/
def pruneFloor (ids : List Nat) (offset : Nat) : Nat :=
  ((ids.insertionSort fun a b => b ≤ a)[offset]?).getD 0

/-- The DELETE of both prunings: the rows of the chain below the floor. -/
def Database.prune (db : Database) (offset : Nat) (tx : Transaction) : Transaction :=
  let rows := (db.sees tx).filter fun row => row.chainID = tx.writer.chainID
  let floor := pruneFloor (rows.map EventRow.id) offset
  { tx with deleted := tx.deleted ++ (rows.filter fun row => row.id < floor).map EventRow.id }

/-- The rows kept by the trigger `ens_event_window`, less one. -/
def ensEventWindow : Nat := 255

/-- The transaction of a writer. -/
def Database.tx (db : Database) (owner : Nat) : Option Transaction :=
  db.txs.find? fun tx => tx.owner = owner

/-- The other transactions. -/
def Database.others (db : Database) (owner : Nat) : List Transaction :=
  db.txs.filter fun tx => tx.owner ≠ owner

/-- The lock is free. -/
def Database.free (db : Database) (lock : Option Lock) : Prop :=
  lock = none ∨ ∀ tx ∈ db.txs, tx.writer.lock ≠ lock

instance (db : Database) (lock : Option Lock) : Decidable (db.free lock) :=
  inferInstanceAs (Decidable (_ ∨ _))

/-- A writer begins its transaction, once its lock is free. -/
def Database.begin (db : Database) (owner : Nat) (writer : Writer) : Database :=
  if db.tx owner = none ∧ db.free writer.lock
  then { db with txs := db.txs ++ [⟨owner, writer, [], []⟩] } else db

/-- INSERT of an event.  It draws its identifier even if the row is rejected, which ends the
    transaction; a row of names prunes the window as well. -/
def Database.insert (db : Database) (owner : Nat) (eventType : EventType) (payload : String) :
    Database :=
  match db.tx owner with
  | none => db
  | some tx =>
    if db.seq < maxBigint ∧ payloadCheck payload = true then
      let row : EventRow := ⟨db.seq + 1, tx.writer.chainID, eventType, payload⟩
      let written := { tx with inserted := tx.inserted ++ [row] }
      let pruned := if eventType = .names then db.prune ensEventWindow written else written
      { db with seq := db.seq + 1, txs := db.others owner ++ [pruned] }
    else { db with seq := min (db.seq + 1) maxBigint, txs := db.others owner }

/-- `EventsWriteRecordStatusStatement5`: a report prunes the replay window. -/
def Database.pruneWindow (db : Database) (replayLimit owner : Nat) : Database :=
  match db.tx owner with
  | none => db
  | some tx =>
    match tx.writer with
    | .report _ =>
      { db with txs := db.others owner ++ [db.prune (replayLimit - 1) tx] }
    | _ => db

/-- What is visible after the commit of a transaction. -/
def Database.commit (db : Database) (owner : Nat) : Database := match db.tx owner with
  | none => db
  | some tx => { db with rows := db.sees tx, txs := db.others owner }

/-- A transaction ends without a trace, except for the sequence numbers it used. -/
def Database.rollback (db : Database) (owner : Nat) : Database := { db with txs := db.others owner }

/-! ## The broker -/

/-- What `PublishStoredContext` reads and writes of `Broker`. -/
structure Broker where
  nextID : Nat
  lastPublished : Nat
  replay : List EventRow
deriving DecidableEq, Repr

/-- Keeps an event for replays if it is newer than the kept ones. -/
def Broker.rememberLocked (broker : Broker) (replayLimit : Nat) (event : EventRow) : Broker :=
  let replay := if broker.replay.getLast?.all (fun last => last.id < event.id) = true then
      let extended := broker.replay ++ [event]
      extended.drop (extended.length - replayLimit)
    else broker.replay
  { broker with nextID := max broker.nextID event.id, replay := replay }

/-- `PublishStoredContext` after the caches are invalidated: whether the event is passed on,
    and the broker. -/
def Broker.publishStored (broker : Broker) (replayLimit : Nat) (event : EventRow) :
    Bool × Broker :=
  if event.id ≤ broker.lastPublished then (false, broker)
  else (true, Broker.rememberLocked
    { broker with lastPublished := event.id, nextID := max broker.nextID event.id } replayLimit
    event)

/-! ## The relay -/

/-- The store and the relay of one chain, with the bounds of their constructors. -/
structure Config where
  chainID : Nat
  replayLimit : Nat
  batchSize : Nat
  replay_bounds : 1 ≤ replayLimit ∧ replayLimit ≤ 4096
  batch_bounds : 1 ≤ batchSize ∧ batchSize ≤ 1024

/-- A requested limit within the maximum. -/
def boundedLimit (requested maximum : Nat) : Nat :=
  if requested = 0 ∨ maximum < requested then maximum else requested

/-- The rows a poll asks for at most. -/
def Config.limit (config : Config) : Nat := boundedLimit config.batchSize config.replayLimit

/-- The rows of the chain. -/
def Config.ofChain (config : Config) (rows : List EventRow) : List EventRow :=
  rows.filter fun row => row.chainID = config.chainID

/-- A page is accepted if its events are valid and in increasing order. -/
def runtimeEventsFromRows (rows : List EventRow) : Option (List EventRow) :=
  if rows.all validateEvent && decide (rows.Pairwise fun a b => a.id < b.id) then some rows
  else none

/-- `Poll`, when the query succeeds. -/
def Config.poll (config : Config) (db : Database) (after : Nat) : Option (List EventRow) :=
  if maxBigint < after then none
  else runtimeEventsFromRows (page EventRow.id after config.limit (config.ofChain db.rows))

/-- Where the relay stands: between two drains, before a poll with the rounds that are left,
    or with the rest of a batch.  A drain that ended with a poll below its limit has read
    the table to its end; `whole` says so of the last drain and of the last poll. -/
inductive Phase where
  | idle (whole : Bool)
  | polling (rounds : Nat)
  | publishing (rounds : Nat) (batch : List EventRow) (short whole : Bool)
deriving DecidableEq, Repr

/-- The rounds of one drain. -/
def drainRounds : Nat := 64

/-- The system; `published` lists what the broker has passed on. -/
structure System where
  db : Database
  after : Nat
  phase : Phase
  broker : Broker
  published : List EventRow
deriving DecidableEq, Repr

/-- One step of a writer or of the relay; the environment decides whether a query and an
    invalidation succeed. -/
inductive Action where
  | begin (owner : Nat) (writer : Writer)
  | insert (owner : Nat) (eventType : EventType) (payload : String)
  | prune (owner : Nat)
  | commit (owner : Nat)
  | rollback (owner : Nat)
  | drain
  | poll (answered : Bool)
  | publish (invalidated : Bool)
deriving DecidableEq, Repr

/-- A poll of `drain`. -/
def System.poll (config : Config) (s : System) (answered : Bool) : System := match s.phase with
  | .polling 0 => { s with phase := .idle false }
  | .polling (rounds + 1) =>
    match if answered then config.poll s.db s.after else none with
    | none => { s with phase := .idle false }
    | some events =>
      { s with
        phase := .publishing rounds events (decide (events.length < config.batchSize))
          (decide (events.length < config.limit)) }
  | _ => s

/-- The next event of a batch, or its end. -/
def System.publish (config : Config) (s : System) (invalidated : Bool) : System :=
  match s.phase with
  | .publishing rounds [] short whole =>
    -- a short batch ends the drain, a full one asks for more
    if short then { s with phase := .idle whole } else { s with phase := .polling rounds }
  | .publishing rounds (event :: rest) short whole =>
    -- an event that cannot be published ends the drain; the cursor stays in front of it
    if event.id ≤ s.after ∨ validateEvent event = false ∨ invalidated = false then
      { s with phase := .idle false }
    else
      let (passed, broker) := s.broker.publishStored config.replayLimit event
      { s with
        after := event.id
        phase := .publishing rounds rest short whole
        broker := broker
        published := if passed then s.published ++ [event] else s.published }
  | _ => s

/-- What an action does. -/
def System.step (config : Config) (s : System) : Action → System
  | .begin owner writer => { s with db := s.db.begin owner writer }
  | .insert owner eventType payload => { s with db := s.db.insert owner eventType payload }
  | .prune owner => { s with db := s.db.pruneWindow config.replayLimit owner }
  | .commit owner => { s with db := s.db.commit owner }
  | .rollback owner => { s with db := s.db.rollback owner }
  | .drain =>
    match s.phase with
    | .idle _ => { s with phase := .polling drainRounds }
    | _ => s
  | .poll answered => s.poll config answered
  | .publish invalidated => s.publish config invalidated

/-- An empty table and a relay that starts at zero. -/
def System.initial : System where
  db := ⟨0, [], []⟩
  after := 0
  phase := .idle false
  broker := ⟨0, 0, []⟩
  published := []

/-- The system after the first actions of a run. -/
def systemAt (config : Config) (actions : List Action) (i : Nat) : System :=
  stateAt (System.step config) System.initial actions i

end Events
