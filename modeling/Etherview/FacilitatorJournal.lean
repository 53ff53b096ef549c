import Etherview.Hex
import Etherview.Relational

/-! # The journal of the facilitator

    The table `facilitator_settlements` and the statements of
    `internal/db/queries/facilitator.sql`.  A settlement is identified by its
    authorization; it is reserved, signed, and ends as succeeded or failed.

    An authorization is named by the parts of its identity, which begins with the network.
    Transactions are kept as the values they encode; their hash is a parameter. -/

namespace Facilitator

open Relational

/-! ## Values -/

/-- An address, as the journal stores it. -/
abbrev Address := BitVec 160

/-- A transaction hash. -/
abbrev Hash := BitVec 256

/-- A digest of a request. -/
abbrev Digest := BitVec 256

/-- The networks of the configuration, such as `eip155:1`. -/
abbrev Network := String

/-- The two methods of a transfer. -/
inductive TransferMethod where
  | eip3009
  | permit2
deriving DecidableEq, Repr

/-- The identity of an authorization: the parts that `decode` joins. -/
structure AuthorizationID where
  network : Network
  method : TransferMethod
  scope : Address
  payer : Address
  nonce : Nat
deriving DecidableEq, Repr

/-- A decoded payment request; `rest` stands for everything that only its digest sees. -/
structure PaymentRequest where
  network : Network
  method : TransferMethod
  asset : Address
  payTo : Address
  amount : Nat
  payer : Address
  nonce : Nat
  rest : String
deriving DecidableEq, Repr

/-- The fields of a transaction. -/
structure UnsignedTransaction where
  chainID : Nat
  nonce : Nat
  gasTipCap : Nat
  gasFeeCap : Nat
  gas : Nat
  toAddress : Address
  data : List Hex.Byte
deriving DecidableEq, Repr

/-- A signed transaction, which stands for its bytes. -/
structure RawTransaction where
  tx : UnsignedTransaction
  signature : Nat
deriving DecidableEq, Repr

/-- `SettleResponse`; an empty text is `none`. -/
structure SettleResponse where
  success : Bool
  errorReason : String
  payer : Option Address
  transaction : Option Hash
  network : Network
  amount : Option Nat
deriving DecidableEq, Repr

/-- The fields of a response that its JSON text leaves out when they are empty.  The type
    belongs to the payment library, so this is a parameter. -/
structure Omitted where
  success : Bool
  errorReason : Bool
  payer : Bool
  transaction : Bool
  network : Bool
  amount : Bool
deriving DecidableEq, Repr

/-- A field decoded over a value: what the text leaves out stays. -/
def decoded {α : Type} [DecidableEq α] (omitted : Bool) (empty stored base : α) : α :=
  if omitted = true ∧ stored = empty then base else stored

/-- Decoding a stored response over another one. -/
def SettleResponse.over (omitted : Omitted) (stored base : SettleResponse) : SettleResponse where
  success := decoded omitted.success false stored.success base.success
  errorReason := decoded omitted.errorReason "" stored.errorReason base.errorReason
  payer := decoded omitted.payer none stored.payer base.payer
  transaction := decoded omitted.transaction none stored.transaction base.transaction
  network := decoded omitted.network "" stored.network base.network
  amount := decoded omitted.amount none stored.amount base.amount

section Decoding

variable {α : Type} [DecidableEq α] (omitted : Bool) {empty stored base : α}

/-- Decoding over an empty field gives the stored one. -/
theorem decoded_empty : decoded omitted empty stored empty = stored := by
  unfold decoded
  split
  · case isTrue h => exact h.2.symm
  · rfl

/-- Decoding a field that is not empty gives that field. -/
theorem decoded_of_ne (h : stored ≠ empty) : decoded omitted empty stored base = stored :=
  if_neg fun hboth => h hboth.2

/-- Decoding a field over itself changes nothing. -/
theorem decoded_self : decoded omitted empty stored stored = stored := ite_self _

end Decoding

/-! ## Rows -/

/-- The states of a settlement. -/
inductive State where
  | reserved
  | signed
  | succeeded
  | failed
deriving DecidableEq, Repr

/-- What is known of a broadcast. -/
inductive BroadcastStatus where
  | unsubmitted
  | unknown
  | confirmed
deriving DecidableEq, Repr

/-- The nonce, the transaction and its hash, which are set together. -/
structure SignedTransaction where
  nonce : Nat
  rawTransaction : RawTransaction
  transactionHash : Hash
deriving DecidableEq, Repr

/-- `facilitator_settlements`. -/
structure Settlement where
  id : AuthorizationID
  requestDigest : Digest
  request : PaymentRequest
  network : Network
  signerAddress : Address
  signed : Option SignedTransaction
  state : State
  broadcastStatus : BroadcastStatus
  response : Option SettleResponse
deriving DecidableEq, Repr

/-- The settlement is under way. -/
def Settlement.active (row : Settlement) : Bool := match row.state with
  | .reserved => true
  | .signed => true
  | _ => false

/-- The stored hash. -/
def Settlement.transactionHash (row : Settlement) : Option Hash :=
  row.signed.map SignedTransaction.transactionHash

/-- The CHECK constraints of a row. -/
def Settlement.check (row : Settlement) : Bool :=
  (decide (row.broadcastStatus = .unsubmitted) || row.signed.isSome) && match row.state with
      | .reserved => row.signed.isNone
      | .signed => row.signed.isSome
      | .succeeded => row.signed.isSome
      | .failed => true

/-- The table. -/
abbrev Journal := Table AuthorizationID Settlement Settlement.id

/-! ## Statements -/

/-- What both INSERTs set. -/
structure ReserveParams where
  id : AuthorizationID
  requestDigest : Digest
  request : PaymentRequest
  network : Network
  signerAddress : Address
deriving DecidableEq, Repr

/-- The row of a reservation. -/
def ReserveParams.row (params : ReserveParams) : Settlement where
  id := params.id
  requestDigest := params.requestDigest
  request := params.request
  network := params.network
  signerAddress := params.signerAddress
  signed := none
  state := .reserved
  broadcastStatus := .unsubmitted
  response := none

/-- The row of a payment that is refused without a transaction. -/
def ReserveParams.refused (params : ReserveParams) (response : SettleResponse) : Settlement :=
  { params.row with state := .failed, response := some response }

/-- The states a settlement ends in. -/
inductive Ending where
  | succeeded
  | failed
deriving DecidableEq, Repr

/-- The state of an ended settlement. -/
def Ending.state : Ending → State
  | .succeeded => .succeeded
  | .failed => .failed

/-- The statements that write. -/
inductive Statement where
  | reserve (params : ReserveParams)
  | saveSigned (id : AuthorizationID) (signed : SignedTransaction)
  | finish (id : AuthorizationID) (ending : Ending) (response : SettleResponse)
  | confirmBroadcast (id : AuthorizationID) (transactionHash : Hash)
  | rejectUnsubmitted (params : ReserveParams) (response : SettleResponse)
deriving DecidableEq, Repr

/-- INSERT … ON CONFLICT DO NOTHING, with the number of rows. -/
def insertRow (rows : Journal) (row : Settlement) : Nat × Journal := match rows.insert? row with
  | none => (0, rows)
  | some rows' => (1, rows')

/-- Another row of the signer has the nonce. -/
def nonceTaken (rows : Journal) (row : Settlement) (nonce : Nat) : Prop :=
  ∃ other ∈ rows.rows, other.id ≠ row.id ∧ other.network = row.network
    ∧ other.signerAddress = row.signerAddress
    ∧ other.signed.map SignedTransaction.nonce = some nonce

instance (rows : Journal) (row : Settlement) (nonce : Nat) :
    Decidable (nonceTaken rows row nonce) :=
  inferInstanceAs (Decidable (∃ other ∈ rows.rows, _))

/-- UPDATE of the row of an authorization that meets a condition; a row that violates a
    constraint is rejected. -/
def updateRow (rows : Journal) (id : AuthorizationID) (condition : Settlement → Bool)
    (set : Settlement → Settlement) (rejected : Settlement → Bool) : Option (Nat × Journal) :=
  match (rows.lookup id).filter condition with
  | none => some (0, rows)
  | some row =>
    if rejected row || !(set row).check then none else some (1, rows.put (set row))

/-- The effect of a statement: the number of rows and the table, or a violated constraint. -/
def Statement.apply (rows : Journal) : Statement → Option (Nat × Journal)
  | .reserve params => some (insertRow rows params.row)
  | .saveSigned id signed =>
    updateRow rows id (fun row => decide (row.state = .reserved) && row.signed.isNone)
      (fun row => { row with signed := some signed, broadcastStatus := .unknown, state := .signed })
      (fun row => nonceTaken rows row signed.nonce)
  | .finish id ending response =>
    updateRow rows id Settlement.active
      (fun row => { row with state := ending.state, response := some response })
      (fun _ => false)
  | .confirmBroadcast id transactionHash =>
    updateRow rows id (fun row => decide (row.transactionHash = some transactionHash
        ∧ row.broadcastStatus ≠ .confirmed))
      (fun row => { row with broadcastStatus := .confirmed }) (fun _ => false)
  | .rejectUnsubmitted params response => some (insertRow rows (params.refused response))

/-- `FacilitatorPendingCount`. -/
def pendingCount (rows : Journal) (network : Network) : Nat :=
  (rows.rows.filter fun row => decide (row.network = network) && row.active).length

/-- `FacilitatorPending`: at most 32 rows, in the order of their creation. -/
def pendingRows (rows : Journal) (network : Network) : List Settlement :=
  (rows.rows.filter fun row => decide (row.network = network) && row.active).take 32

/-! ## Effects -/

/-- One row is written and the others stay. -/
def Writes (rows rows' : Journal) (row : Settlement) : Prop :=
  ∀ id, rows'.lookup id = if row.id = id then some row else rows.lookup id

/-- What a statement can write. -/
inductive Effect (rows rows' : Journal) : Statement → Prop where
  | none {statement : Statement} (same : rows' = rows) : Effect rows rows' statement
  | reserved {params : ReserveParams} (fresh : rows.lookup params.id = none)
      (writes : Writes rows rows' params.row) : Effect rows rows' (.reserve params)
  | refused {params : ReserveParams} {response : SettleResponse}
      (fresh : rows.lookup params.id = none)
      (writes : Writes rows rows' (params.refused response)) :
      Effect rows rows' (.rejectUnsubmitted params response)
  | signed {id : AuthorizationID} {signed : SignedTransaction} (old : Settlement)
      (found : rows.lookup id = some old) (state : old.state = .reserved)
      (unsigned : old.signed = .none)
      (writes : Writes rows rows'
        { old with signed := some signed, broadcastStatus := .unknown, state := .signed }) :
      Effect rows rows' (.saveSigned id signed)
  | finished {id : AuthorizationID} {ending : Ending} {response : SettleResponse}
      (old : Settlement) (found : rows.lookup id = some old) (active : old.active = true)
      (check : ending = .succeeded → old.signed.isSome = true)
      (writes : Writes rows rows' { old with state := ending.state, response := some response }) :
      Effect rows rows' (.finish id ending response)
  | confirmed {id : AuthorizationID} {transactionHash : Hash} (old : Settlement)
      (found : rows.lookup id = some old)
      (writes : Writes rows rows' { old with broadcastStatus := .confirmed }) :
      Effect rows rows' (.confirmBroadcast id transactionHash)

section Effects

variable {rows rows' : Journal} {row : Settlement}

theorem writes_insert (h : rows.insert? row = some rows') :
    rows.lookup row.id = none ∧ Writes rows rows' row := by
  obtain ⟨hfresh, rfl⟩ := rows.insert?_eq_some.mp h
  refine ⟨rows.lookup_eq_none.mpr fun other hmem heq => ?_,
    fun id => rows.lookup_insert hfresh id⟩
  exact hfresh (List.mem_map.mpr ⟨other, hmem, heq⟩)

variable {count : Nat}

/-- An insert leaves the table alone, or adds a row of a new identity. -/
theorem insertRow_cases (h : some (insertRow rows row) = some (count, rows')) :
    rows' = rows ∨ rows.lookup row.id = none ∧ Writes rows rows' row := by
  rw [insertRow] at h
  cases hinsert : rows.insert? row with
  | none =>
    rw [hinsert] at h
    cases h
    exact .inl rfl
  | some inserted =>
    rw [hinsert] at h
    cases h
    exact .inr (writes_insert hinsert)

theorem writes_put (old : Settlement) (hfound : rows.lookup row.id = some old) :
    Writes rows (rows.put row) row := by
  intro id
  rw [Table.lookup_put]
  by_cases hid : row.id = id
  · rw [if_pos hid, if_pos hid, ← hid, hfound]
    rfl
  · rw [if_neg hid, if_neg hid]

/-- An update changes nothing, or writes one row that met its condition and its checks. -/
theorem updateRow_cases {id : AuthorizationID} {condition : Settlement → Bool}
    {set : Settlement → Settlement} {rejected : Settlement → Bool}
    (h : updateRow rows id condition set rejected = some (count, rows'))
    (hid : ∀ row, (set row).id = row.id) :
    rows' = rows ∨ ∃ old, rows.lookup id = some old ∧ condition old = true
      ∧ (set old).check = true ∧ Writes rows rows' (set old) := by
  rw [updateRow] at h
  cases hfound : (rows.lookup id).filter condition with
  | none =>
    rw [hfound] at h
    cases h
    exact .inl rfl
  | some old =>
    obtain ⟨hold, hwhere⟩ := Option.filter_eq_some_iff.mp hfound
    rw [hfound] at h
    simp only at h
    split at h
    · cases h
    · next haccepted =>
        cases h
        rw [Bool.or_eq_true, not_or] at haccepted
        refine .inr ⟨old, hold, hwhere, by simpa using haccepted.2, ?_⟩
        refine writes_put old ?_
        rw [hid, Table.key_of_lookup hold]
        exact hold

/-- **What a statement writes.** -/
theorem Statement.effect {statement : Statement}
    (h : statement.apply rows = some (count, rows')) : Effect rows rows' statement := by
  cases statement with
  | reserve params =>
    rcases insertRow_cases h with hsame | ⟨hfresh, hwrites⟩
    · exact .none hsame
    · exact .reserved hfresh hwrites
  | rejectUnsubmitted params response =>
    rcases insertRow_cases h with hsame | ⟨hfresh, hwrites⟩
    · exact .none hsame
    · exact .refused hfresh hwrites
  | saveSigned id signed =>
    rcases updateRow_cases h fun _ => rfl with hsame | ⟨old, hold, hwhere, -, hwrites⟩
    · exact .none hsame
    · rw [Bool.and_eq_true, decide_eq_true_eq, Option.isNone_iff_eq_none] at hwhere
      exact .signed old hold hwhere.1 hwhere.2 hwrites
  | finish id ending response =>
    rcases updateRow_cases h fun _ => rfl with hsame | ⟨old, hold, hwhere, hcheck, hwrites⟩
    · exact .none hsame
    · refine .finished old hold hwhere (fun hending => ?_) hwrites
      subst hending
      simp only [Settlement.check, Ending.state, Bool.and_eq_true] at hcheck
      exact hcheck.2
  | confirmBroadcast id transactionHash =>
    rcases updateRow_cases h fun _ => rfl with hsame | ⟨old, hold, -, -, hwrites⟩
    · exact .none hsame
    · exact .confirmed old hold hwrites

end Effects

end Facilitator
