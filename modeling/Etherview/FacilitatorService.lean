import Etherview.FacilitatorJournal
import Etherview.Interaction
import Etherview.Transact

/-! # The facilitator as a program

    `internal/facilitator`: a settle call (`executePayment`), the tick of a monitor, and
    `Rebroadcast`, as programs that talk to the journal, the gates of the chains and the
    node.  Any number of them run at once, and a crash stops them all.

    The payment scheme is a library that talks to the chain through the adapter.  It is any
    program over the adapter's methods, run by `Prog.handle`; it may return what it likes.
    What the node answers is left open, except that a receipt which
    `waitForTransactionReceipt` accepts is final.

    A statement that reports an error was executed or was not.  The log of what was sent,
    the log of the answers, the row that a call found and whether it found the gate free are
    kept for the statements of the theorems; no program reads them. -/

namespace Facilitator

open Relational Interaction Transact

/-! ## Receipts -/

/-- A log of a receipt. -/
structure Log where
  address : Address
  topics : List Hash
  data : List Hex.Byte
deriving DecidableEq, Repr

/-- The status of a receipt: 0 or 1. -/
inductive Status where
  | reverted
  | succeeded
deriving DecidableEq, Repr

/-- A receipt of a transaction. -/
structure Receipt where
  txHash : Hash
  blockHash : Hash
  blockNumber : Option Nat
  status : Status
  logs : List Log
deriving DecidableEq, Repr

/-- `Keccak256("Transfer(address,address,uint256)")`. -/
def transferTopic : Hash := 0xddf252ad1be2c89b69c2b068fc378daa952ba7f163c4a11628f55a4df523b3ef

/-- `BytesToHash` of an address. -/
def Address.topic (address : Address) : Hash := address.setWidth 256

/-- The log is the transfer that the request asks for. -/
def Log.transfers (log : Log) (request : PaymentRequest) : Bool :=
  decide (log.address = request.asset
    ∧ log.topics = [transferTopic, Address.topic request.payer, Address.topic request.payTo]
    ∧ log.data.length = 32 ∧ Hex.bigEndian log.data = request.amount)

/-- One of the logs is the transfer. -/
def Receipt.transfers (receipt : Receipt) (request : PaymentRequest) : Bool :=
  receipt.logs.any fun log => log.transfers request

/-! ## Requests -/

/-- A configured network. -/
structure ChainConfig where
  network : Network
  signer : Address
  tokens : List Address
  maxFeePerGas : Nat
  maxGas : Nat
  confirmations : Nat
deriving DecidableEq, Repr

/-- Why there is no receipt: the node is not ready, or something else. -/
inductive ReceiptFailure where
  | notReady
  | other
deriving DecidableEq, Repr

/-- The three reads of one round of `WaitForTransactionReceipt`. -/
structure Observation where
  receipt : Except ReceiptFailure Receipt
  head : Option Nat
  canonical : Option Hash

/-- What a round comes to. -/
inductive Round where
  | accepted (receipt : Receipt)
  | wait
  | unavailable
deriving DecidableEq, Repr

/-- One round: the receipt counts when its block is canonical and deep enough. -/
def Observation.round (observation : Observation) (config : ChainConfig) (hash : Hash) : Round :=
  match observation.receipt with
  | .error .notReady => .wait
  | .error .other => .unavailable
  | .ok receipt =>
    match receipt.blockNumber with
    | none => .unavailable
    | some number =>
      if observation.head.any (fun head => decide
            (number ≤ head ∧ config.confirmations ≤ (head - number + 1) % 2 ^ 64))
          && decide (observation.canonical = some receipt.blockHash ∧ receipt.txHash = hash)
      then .accepted receipt
      else .wait

/-- The reads of `WriteContract` and the signature. -/
inductive Rpc where
  | chainID
  | pendingNonceAt (address : Address)
  | suggestGasTipCap
  | baseFee
  | estimateGas (sender recipient : Address) (data : List Hex.Byte)
  | sign (tx : UnsignedTransaction)

/-- Why a row is not read. -/
inductive GetError where
  | noRows
  | unavailable
deriving DecidableEq, Repr

/-- The codes of `operationError`. -/
inductive OperationError where
  | chainUnavailable
  | chainBusy
  | authorizationConflict
  | journalUnavailable
  | reservationFailed
deriving DecidableEq, Repr

/-- What the programs ask for. -/
inductive Request where
  | arrive (id : AuthorizationID)
  | answer (request : PaymentRequest) (result : Except OperationError SettleResponse)
  | healthy (network : Network)
  | guard
  | tryGate (network : Network)
  | awaitGate (network : Network)
  | releaseGate (network : Network)
  | get (id : AuthorizationID)
  | pendingCount (network : Network)
  | pending (network : Network)
  | write (statement : Statement)
  | rpc (read : Rpc)
  | view (query : String)
  | send (id : AuthorizationID) (rawTransaction : RawTransaction)
  | ticks
  | observe (config : ChainConfig) (hash : Hash)

/-- The requests and their answers; a failed statement or read is `none`. -/
def facilitatorInterface : Interface where
  Request := Request
  Answer
    | .arrive _ => Unit
    | .answer _ _ => Unit
    | .healthy _ => Bool
    | .guard => Bool
    | .tryGate _ => Bool
    | .awaitGate _ => Bool
    | .releaseGate _ => Unit
    | .get _ => Except GetError Settlement
    | .pendingCount _ => Option Nat
    | .pending _ => Option (List Settlement)
    | .write _ => Option Nat
    | .rpc _ => Option Nat
    | .view _ => Option String
    | .send _ _ => Bool
    | .ticks => Nat
    | .observe _ _ => Observation

/-- A program of the facilitator. -/
abbrev Facilitate := Prog facilitatorInterface

section Asking

variable {ε : Type}

/-- Whether the network answers. -/
def healthy (network : Network) : Facilitate ε Bool := .ask (.healthy network : Request) .done

/-- Whether the process may still write. -/
def guard : Facilitate ε Bool := .ask (.guard : Request) .done

/-- Takes the gate of a network if it is free. -/
def tryGate (network : Network) : Facilitate ε Bool := .ask (.tryGate network : Request) .done

/-- Waits for the gate of a network. -/
def awaitGate (network : Network) : Facilitate ε Bool := .ask (.awaitGate network : Request) .done

/-- Gives the gate back. -/
def releaseGate (network : Network) : Facilitate ε Unit :=
  .ask (.releaseGate network : Request) .done

/-- The rounds until the deadline. -/
def ticks : Facilitate ε Nat := .ask (.ticks : Request) .done

/-- Asks the node for a receipt. -/
def observe (config : ChainConfig) (hash : Hash) : Facilitate ε Observation :=
  .ask (.observe config hash : Request) .done

/-- Sends a signed transaction. -/
def send (id : AuthorizationID) (rawTransaction : RawTransaction) : Facilitate ε Bool :=
  .ask (.send id rawTransaction : Request) .done

/-- Reads a contract. -/
def view (query : String) : Facilitate ε (Option String) := .ask (.view query : Request) .done

/-- Reads a row. -/
def facilitatorGet (id : AuthorizationID) : Facilitate ε (Except GetError Settlement) :=
  .ask (.get id : Request) .done

/-- `FacilitatorGet`, every error being the same. -/
def getOr (id : AuthorizationID) (err : ε) : Facilitate ε Settlement :=
  .ask (.get id : Request) fun
    | .ok row => .done row
    | .error _ => .fail err

/-- The number of settlements that are underway. -/
def facilitatorPendingCount (network : Network) (err : ε) : Facilitate ε Nat :=
  .ask (.pendingCount network : Request) fun
    | some count => .done count
    | none => .fail err

/-- The settlements that are underway. -/
def facilitatorPending (network : Network) : Facilitate ε (Option (List Settlement)) :=
  .ask (.pending network : Request) .done

/-- A statement, with the number of rows. -/
def write (statement : Statement) (err : ε) : Facilitate ε Nat :=
  .ask (.write statement : Request) fun
    | some count => .done count
    | none => .fail err

/-- A statement whose outcome is ignored. -/
def tryWrite (statement : Statement) : Facilitate ε Unit :=
  .ask (.write statement : Request) fun _ => .done ()

/-- A number that the node answers with. -/
def rpc (read : Rpc) (err : ε) : Facilitate ε Nat := .ask (.rpc read : Request) fun
    | some value => .done value
    | none => .fail err

end Asking

/-! ## The adapter -/

/-- What a write to a contract can fail with. -/
inductive WriteError where
  | unsupportedTransaction
  | packing
  | missingReservation
  | inactive
  | chainIdentityMismatch
  | rpc
  | feeUnavailable
  | feeLimit
  | gasLimit
  | journalWriteFailed
deriving DecidableEq, Repr

/-- A call of `WriteContract`; `packed` is what the ABI makes of the arguments. -/
structure ContractCall where
  address : Address
  method : String
  suffix : List Hex.Byte
  packed : Option (List Hex.Byte)
deriving DecidableEq, Repr

/-- What a journal of a transaction can fail with. -/
inductive StoreError where
  | missingReservation
  | unavailable
  | journalHashMismatch
deriving DecidableEq, Repr

/-- The methods of the adapter and of the store of pending settlements, as the scheme calls
    them; `view` stands for those that only read the chain. -/
inductive SchemeRequest where
  | view (query : String)
  | sendTransaction
  | writeContract (call : ContractCall)
  | waitForTransactionReceipt (hash : Hash)
  | pendingGet
  | pendingSet (hash : Hash)
  | pendingDelete

/-- What the scheme of the library asks of its signer. -/
def schemeInterface : Interface where
  Request := SchemeRequest
  Answer
    | .view _ => Option String
    | .sendTransaction => Unit
    | .writeContract _ => Except WriteError Hash
    | .waitForTransactionReceipt _ => Option Receipt
    | .pendingGet => Except StoreError (Option Hash)
    | .pendingSet _ => Except StoreError Unit
    | .pendingDelete => Unit

/-- The service: its configuration, the scheme, what it takes from cryptography, and how
    responses are written. -/
structure Service where
  chains : Network → Option ChainConfig
  networkID : Network → Option Nat
  digest : PaymentRequest → Digest
  hash : RawTransaction → Hash
  sender : RawTransaction → Option Address
  omitted : Omitted
  permit2 : Address
  permit2Proxy : Address
  verify : PaymentRequest → Prog schemeInterface Unit Bool
  settle : PaymentRequest → Prog schemeInterface Unit Unit

/-- The identity of the authorization: a Permit2 nonce is one of the owner, whatever the
    token. -/
def Service.authorizationID (service : Service) (request : PaymentRequest) : AuthorizationID where
  network := request.network
  method := request.method
  scope := match request.method with
    | .eip3009 => request.asset
    | .permit2 => service.permit2
  payer := request.payer
  nonce := request.nonce

/-- The rounds of `WaitForTransactionReceipt` until the context ends. -/
def waitRounds {ε : Type} (config : ChainConfig) (ctx : Option AuthorizationID) (hash : Hash) :
    Nat → Facilitate ε (Option Receipt)
  | 0 => pure none
  | count + 1 => do
      let observation ← observe config hash
      match observation.round config hash with
      | .unavailable => pure none
      | .wait => waitRounds config ctx hash count
      | .accepted receipt =>
        match ctx with
        | none => pure (some receipt)
        | some id => do
            tryWrite (.confirmBroadcast id receipt.txHash)
            pure (some receipt)

/-- Polls for a receipt until the deadline. -/
def waitForTransactionReceipt {ε : Type} (config : ChainConfig) (ctx : Option AuthorizationID)
    (hash : Hash) : Facilitate ε (Option Receipt) := do
  let count ← ticks
  waitRounds config ctx hash count

/-- The guard before a write. -/
def guarded : Facilitate WriteError Unit := do
  let active ← guard
  failIf (active = false) WriteError.inactive

/-- The contract and the method are among those the adapter writes to. -/
def Service.allows (service : Service) (config : ChainConfig) (call : ContractCall) : Prop :=
  (call.method = "settle" ∧ call.address = service.permit2Proxy)
    ∨ (call.method = "transferWithAuthorization" ∧ call.address ∈ config.tokens)

instance (service : Service) (config : ChainConfig) (call : ContractCall) :
    Decidable (service.allows config call) :=
  inferInstanceAs (Decidable (_ ∨ _))

/-- The transaction of a call, from what the node says. -/
def Service.prepare (service : Service) (config : ChainConfig) (call : ContractCall)
    (data : List Hex.Byte) : Facilitate WriteError UnsignedTransaction := do
  let chainID ← rpc .chainID WriteError.chainIdentityMismatch
  failIf (service.networkID config.network ≠ some chainID) WriteError.chainIdentityMismatch
  let nonce ← rpc (.pendingNonceAt config.signer) WriteError.rpc
  let tip ← rpc .suggestGasTipCap WriteError.rpc
  let baseFee ← rpc .baseFee WriteError.feeUnavailable
  let fee := tip + baseFee * 2
  failIf (config.maxFeePerGas < fee) WriteError.feeLimit
  let gas ← rpc (.estimateGas config.signer call.address data) WriteError.rpc
  failIf (config.maxGas < gas ∨ config.maxGas < (gas + gas / 5) % 2 ^ 64) WriteError.gasLimit
  pure {
    chainID := chainID, nonce := nonce, gasTipCap := tip, gasFeeCap := fee,
    gas := (gas + gas / 5) % 2 ^ 64, toAddress := call.address, data := data }

/-- The signed transaction, as it is stored. -/
def Service.sign (service : Service) (tx : UnsignedTransaction) :
    Facilitate WriteError SignedTransaction := do
  let signature ← rpc (.sign tx) .rpc
  let raw : RawTransaction := { tx := tx, signature := signature }
  pure { nonce := tx.nonce, rawTransaction := raw, transactionHash := service.hash raw }

/-- The stored transaction is sent, if the instance is still the active one. -/
def broadcast {ε : Type} (id : AuthorizationID) (signed : SignedTransaction) :
    Facilitate ε Unit := do
  let active ← guard
  if active then do
    let sent ← send id signed.rawTransaction
    if sent then tryWrite (.confirmBroadcast id signed.transactionHash) else pure ()
  else pure ()

/-- `WriteContract`: the transaction is stored before it is sent, and its hash is returned
    whatever comes of sending it. -/
def Service.writeContract (service : Service) (config : ChainConfig)
    (ctx : Option AuthorizationID) (call : ContractCall) : Facilitate WriteError Hash := do
  failIf (call.suffix ≠ [] ∨ ¬ service.allows config call) WriteError.unsupportedTransaction
  match call.packed, ctx with
  | none, _ => .fail .packing
  | some _, none => .fail .missingReservation
  | some data, some id => do
      guarded
      let tx ← service.prepare config call data
      let signed ← service.sign tx
      guarded
      let count ← write (.saveSigned id signed) WriteError.journalWriteFailed
      -- the row has ended, or it has a transaction already
      failIf (count ≠ 1) WriteError.journalWriteFailed
      broadcast id signed
      pure signed.transactionHash

/-- `pendingJournal.Get`. -/
def pendingGet (ctx : Option AuthorizationID) : Facilitate StoreError (Option Hash) :=
  match ctx with
  | none => .fail .missingReservation
  | some id => do
      let row ← getOr id .unavailable
      pure row.transactionHash

/-- `pendingJournal.Set`. -/
def pendingSet (ctx : Option AuthorizationID) (hash : Hash) : Facilitate StoreError Unit := do
  let saved ← pendingGet ctx
  failIf (saved ≠ some hash) StoreError.journalHashMismatch

/-- What the scheme calls, in the context of an authorization. -/
def Service.adapter {ε : Type} (service : Service) (config : ChainConfig)
    (ctx : Option AuthorizationID) :
    (request : schemeInterface.Request) → Facilitate ε (schemeInterface.Answer request)
  | .view query => view query
  | .sendTransaction => pure ()
  | .writeContract call => (service.writeContract config ctx call).attempt
  | .waitForTransactionReceipt hash => waitForTransactionReceipt config ctx hash
  | .pendingGet => (pendingGet ctx).attempt
  | .pendingSet hash => (pendingSet ctx hash).attempt
  | .pendingDelete => pure ()

/-! ## Settle calls -/

/-- A response without a transaction. -/
def refusal (request : PaymentRequest) (reason : String) : SettleResponse where
  success := false
  errorReason := reason
  payer := some request.payer
  transaction := none
  network := request.network
  amount := some request.amount

/-- The answer to a payment that does not verify; nothing is stored. -/
def verificationFailed (request : PaymentRequest) : SettleResponse where
  success := false
  errorReason := "verification_failed"
  payer := none
  transaction := none
  network := request.network
  amount := none

/-- The answer when the scheme has signed nothing. -/
def settlementRejected (request : PaymentRequest) : SettleResponse where
  success := false
  errorReason := "settlement_rejected"
  payer := some request.payer
  transaction := none
  network := request.network
  amount := none

/-- A response for a transaction that is on its way. -/
def settlementPending (request : PaymentRequest) (network : Network) (hash : Hash) :
    SettleResponse where
  success := false
  errorReason := "settlement_pending"
  payer := some request.payer
  transaction := some hash
  network := network
  amount := some request.amount

/-- `observedSettlement`: what a row says to a call that may not touch it.  The stored
    response is decoded over one that is filled from the request. -/
def observedSettlement (omitted : Omitted) (row : Settlement) (request : PaymentRequest)
    (digest : Digest) : Except OperationError SettleResponse := do
  failIf (row.requestDigest ≠ digest) .authorizationConflict
  match row.response, row.transactionHash with
  | some response, _ => .ok (response.over omitted (refusal request ""))
  | none, none => .error .chainBusy
  | none, some hash => .ok (settlementPending request request.network hash)

/-- What both insertions store. -/
def Service.reservation (service : Service) (config : ChainConfig) (request : PaymentRequest) :
    ReserveParams where
  id := service.authorizationID request
  requestDigest := service.digest request
  request := request
  network := request.network
  signerAddress := config.signer

/-- Refuses a payment for which no transaction was submitted. -/
def Service.rejectUnsubmitted (service : Service) (config : ChainConfig) (request : PaymentRequest)
    (reason : String) : Facilitate OperationError SettleResponse := do
  let _ ← write (.rejectUnsubmitted (service.reservation config request) (refusal request reason))
    .journalUnavailable
  let row ← getOr (service.authorizationID request) .journalUnavailable
  liftM (observedSettlement service.omitted row request (service.digest request))

/-- `reconcile`: the row is ended by what became of its transaction. -/
def reconcile (config : ChainConfig) (ctx : Option AuthorizationID) (row : Settlement)
    (request : PaymentRequest) : Facilitate OperationError SettleResponse :=
  match row.response, row.transactionHash with
  | some response, _ => pure response
  -- reserved, and never signed
  | none, none => do
      let rejected := { refusal request "settlement_rejected" with network := row.network }
      let _ ← write (.finish row.id .failed rejected) .journalUnavailable
      pure rejected
  | none, some hash => do
      let pending := settlementPending request row.network hash
      match ← waitForTransactionReceipt config ctx hash with
      | none => pure pending
      | some receipt =>
        if receipt.status = .succeeded then
          if receipt.transfers request then do
            let settled := { pending with success := true, errorReason := "" }
            let _ ← write (.finish row.id .succeeded settled) .journalUnavailable
            pure settled
          else pure pending
        else do
          let rejected := { refusal request "settlement_rejected" with network := row.network }
          let _ ← write (.finish row.id .failed rejected) .journalUnavailable
          pure rejected

/-- The scheme has run; the journal says what came of it. -/
def Service.conclude (service : Service) (config : ChainConfig) (request : PaymentRequest) :
    Facilitate OperationError SettleResponse := do
  let id := service.authorizationID request
  let row ← getOr id .journalUnavailable
  match row.transactionHash with
  | none => do
      let _ ← write (.finish id .failed (settlementRejected request))
        .journalUnavailable
      pure (settlementRejected request)
  | some _ => reconcile config (some id) row request

/-- A verified payment is reserved and settled. -/
def Service.settleVerified (service : Service) (config : ChainConfig) (request : PaymentRequest) :
    Facilitate OperationError SettleResponse := do
  let id := service.authorizationID request
  let count ← write (.reserve (service.reservation config request)) .reservationFailed
  if count ≠ 1 then do
    -- a refusal has taken the authorization while the payment was verified
    let row ← getOr id .journalUnavailable
    liftM (observedSettlement service.omitted row request (service.digest request))
  else do
    let _ ← (service.settle request).handle (service.adapter config (some id))
    service.conclude config request

/-- A payment that the journal does not know. -/
def Service.settleFresh (service : Service) (config : ChainConfig) (request : PaymentRequest) :
    Facilitate OperationError SettleResponse := do
  let pending ← facilitatorPendingCount request.network .journalUnavailable
  if pending ≠ 0 then service.rejectUnsubmitted config request "chain_pending"
  else do
    let verified ← (service.verify request).handle (service.adapter config none)
    match verified with
    | .ok true => service.settleVerified config request
    | _ => pure (verificationFailed request)

/-- What is done with the gate of the chain. -/
def Service.settleGated (service : Service) (config : ChainConfig) (request : PaymentRequest) :
    Facilitate OperationError SettleResponse := do
  let found ← facilitatorGet (service.authorizationID request)
  match found with
  | .ok row => do
      -- the authorization is in use for another request
      failIf (row.requestDigest ≠ service.digest request) OperationError.authorizationConflict
      reconcile config none row request
  | .error .unavailable => .fail .journalUnavailable
  | .error .noRows => service.settleFresh config request

/-- `executePayment`, for a payment that is to be settled. -/
def Service.executePayment (service : Service) (config : ChainConfig) (request : PaymentRequest) :
    Facilitate OperationError SettleResponse := do
  let isHealthy ← healthy request.network
  failIf (isHealthy = false) OperationError.chainUnavailable
  let active ← guard
  failIf (active = false) OperationError.chainUnavailable
  let free ← tryGate request.network
  if free then (service.settleGated config request).always (releaseGate request.network)
  else service.rejectUnsubmitted config request "chain_busy"

/-- A settle call, from its arrival to its answer. -/
def Service.settleCall (service : Service) (config : ChainConfig) (request : PaymentRequest) :
    Facilitate Empty Unit := do
  .ask (.arrive (service.authorizationID request) : Request) .done
  let result ← (service.executePayment config request).attempt
  .ask (.answer request result : Request) .done

/-! ## Recovery -/

/-- The rows of a monitor, one after the other. -/
def reconcileAll (config : ChainConfig) : List Settlement → Facilitate Empty Unit
  | [] => pure ()
  | row :: rows => do
      let _ ← (reconcile config none row row.request).attempt
      reconcileAll config rows

/-- What a monitor does with the gate. -/
def reconcilePending (config : ChainConfig) : Facilitate Empty Unit := do
  match ← facilitatorPending config.network with
  | none => pure ()
  | some rows => reconcileAll config rows

/-- A tick of the monitor of a chain. -/
def Service.monitor (service : Service) (config : ChainConfig) : Facilitate Empty Unit := do
  let chainID ← (rpc .chainID () : Facilitate Unit Nat).attempt
  if chainID.toOption ≠ none ∧ chainID.toOption = service.networkID config.network then do
    let active ← guard
    if active then do
      let free ← tryGate config.network
      if free then (reconcilePending config).always (releaseGate config.network) else pure ()
    else pure ()
  else pure ()

/-- What a recovery can fail with. -/
inductive RecoveryError where
  | recoveryUnavailable
  | recoveryNetworkUnavailable
  | cancelled
  | invalidJournal
  | inactive
  | recoveryPending
deriving DecidableEq, Repr

/-- The stored transaction is sent again, when it is the one that its row describes. -/
def Service.resend (service : Service) (config : ChainConfig) (row : Settlement)
    (signed : SignedTransaction) : Facilitate RecoveryError Unit := do
  failIf (service.hash signed.rawTransaction ≠ signed.transactionHash)
    RecoveryError.invalidJournal
  failIf (service.networkID row.network ≠ some signed.rawTransaction.tx.chainID)
    RecoveryError.invalidJournal
  failIf (service.sender signed.rawTransaction ≠ some row.signerAddress
      ∨ service.sender signed.rawTransaction ≠ some config.signer)
    RecoveryError.invalidJournal
  let active ← guard
  failIf (active = false) RecoveryError.inactive
  let sent ← send row.id signed.rawTransaction
  failIf (sent = false) RecoveryError.recoveryPending
  let _ ← write (.confirmBroadcast row.id signed.transactionHash) RecoveryError.recoveryPending
  pure ()

/-- Sends the transaction of a settlement again. -/
def Service.rebroadcast (service : Service) (id : AuthorizationID) :
    Facilitate RecoveryError Unit := do
  let row ← getOr id RecoveryError.recoveryUnavailable
  failIf (row.state ≠ .signed) RecoveryError.recoveryUnavailable
  match row.signed, service.chains row.network with
  | none, _ => .fail .recoveryUnavailable
  | some _, none => .fail .recoveryNetworkUnavailable
  | some signed, some config => do
      let free ← awaitGate row.network
      failIf (free = false) RecoveryError.cancelled
      (service.resend config row signed).always (releaseGate row.network)

/-! ## The system -/

/-- A transaction that was given to the node, with the row of its authorization then. -/
structure Sending where
  id : AuthorizationID
  rawTransaction : RawTransaction
  found : Option Settlement
deriving DecidableEq, Repr

/-- The answer to a settle call, with the row of its authorization when the call came, and
    whether the gate was free for it. -/
structure Answered where
  request : PaymentRequest
  found : Option Settlement
  gated : Bool
  result : Except OperationError SettleResponse
deriving DecidableEq

/-- The journal, the gates and the chain; and what is kept of the past. -/
structure System where
  rows : Journal
  gate : Network → Option Nat
  final : Hash → Option Receipt
  found : Nat → Option Settlement
  gated : Nat → Bool
  sent : List Sending
  answers : List Answered

/-- How the requests of a lane are served. -/
def Serves (lane : Nat) : (request : facilitatorInterface.Request) → System →
    facilitatorInterface.Answer request → System → Prop
  | .arrive id, s, _, t =>
    t = { s with
      found := Function.update s.found lane (s.rows.lookup id)
      gated := Function.update s.gated lane false }
  | .answer request result, s, _, t =>
    t = { s with answers := s.answers ++ [⟨request, s.found lane, s.gated lane, result⟩] }
  | .healthy _, s, _, t => t = s
  | .guard, s, _, t => t = s
  -- `TryLock`: fails at once while the gate is held
  | .tryGate network, s, free, t =>
    (free = true ∧ s.gate network = none
      ∧ t = { s with
          gate := Function.update s.gate network (some lane)
          gated := Function.update s.gated lane true })
    ∨ (free = false ∧ s.gate network ≠ none ∧ t = s)
  | .awaitGate network, s, free, t =>
    (free = true ∧ s.gate network = none
      ∧ t = { s with gate := Function.update s.gate network (some lane) })
    ∨ (free = false ∧ t = s)
  | .releaseGate network, s, _, t => t = { s with gate := Function.update s.gate network none }
  | .get id, s, answer, t =>
    t = s
      ∧ (answer = .error .unavailable ∨ answer = (s.rows.lookup id).elim (.error .noRows) .ok)
  | .pendingCount network, s, answer, t =>
    t = s ∧ (answer = none ∨ answer = some (pendingCount s.rows network))
  | .pending network, s, answer, t =>
    t = s ∧ (answer = none ∨ answer = some (pendingRows s.rows network))
  -- a statement may have run although its answer is lost
  | .write statement, s, answer, t =>
    (answer = none ∧ t = s)
    ∨ ∃ count rows, statement.apply s.rows = some (count, rows)
        ∧ (answer = none ∨ answer = some count) ∧ t = { s with rows := rows }
  | .rpc _, s, _, t => t = s
  | .view _, s, _, t => t = s
  | .send id rawTransaction, s, _, t =>
    t = { s with sent := s.sent ++ [⟨id, rawTransaction, s.rows.lookup id⟩] }
  | .ticks, s, _, t => t = s
  -- a receipt is accepted only once it is final
  | .observe config hash, s, observation, t =>
    t = s ∧ ∀ receipt, observation.round config hash = .accepted receipt →
      s.final hash = some receipt

/-- The chain goes on: a transaction becomes final. -/
def Environment (s t : System) : Prop := ∃ hash receipt, s.final hash = none
    ∧ t = { s with final := Function.update s.final hash (some receipt) }

/-- The process ends; the gates are those of the next one. -/
def Crash (s t : System) : Prop := t = { s with gate := fun _ => none }

/-- What may be started; settle calls are made with some requests. -/
inductive Started (service : Service) (Asked : PaymentRequest → Prop) :
    Facilitate Empty Unit → Prop where
  | settleCall {config : ChainConfig} {request : PaymentRequest} (asked : Asked request)
      (chain : service.chains request.network = some config) :
      Started service Asked (service.settleCall config request)
  | monitor {config : ChainConfig} (chain : service.chains config.network = some config) :
      Started service Asked (service.monitor config)
  | rebroadcast (id : AuthorizationID) :
      Started service Asked ((service.rebroadcast id).attempt.bind fun _ => .done ())

end Facilitator
