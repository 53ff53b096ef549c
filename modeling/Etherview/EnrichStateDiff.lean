import Mathlib.Data.Finmap
import Mathlib.Data.Finset.Sort
import Mathlib.Data.List.Lex
import Etherview.Hex
import Etherview.MapUpdate
import Etherview.StoreTypes

/-! # Evidence from a state difference

    The part of `internal/enrich/state_diff_processor.go` that reads a transaction's
    `prestateTracer` difference and replays the transaction's EIP-7702 authorizations on
    it.  Wire values are those `json.Unmarshal` leaves in the source's wire structs. -/

namespace Enrich

open Store MapUpdate Hex Transact

/-! ## Bytes and addresses -/

/-- `common.Address`. -/
abbrev Address := { bytes : List Byte // bytes.length = 20 }

/-- The zero address. -/
def zeroAddress : Address := ⟨List.replicate 20 0, List.length_replicate⟩

/-- `ethrpc.ParseData`. -/
def parseData (value : String) : Option (List Byte) := Hex.parse value

/-- `ethrpc.ParseAddress`. -/
def parseAddress (value : String) : Option Address := do
  let data ← parseData value
  if h : data.length = 20 then some ⟨data, h⟩ else none

/-- `ethrpc.ParseQuantity`: lower-case digits without a leading zero, at most 256 bits. -/
def parseQuantity (value : String) : Option Nat := match value.toList with
  | '0' :: 'x' :: digits =>
    if digits.isEmpty ∨ (digits.length > 1 ∧ digits.head? = some '0') ∨ digits.length > 64 ∨
        digits.any (fun c => decide ('A' ≤ c ∧ c ≤ 'F')) then none
    else number digits
  | _ => none

/-- The text of some bytes is read back. -/
theorem parseData_text (bytes : List Byte) : parseData (text bytes) = some bytes :=
  parse_text bytes

/-- The text of an address is read back. -/
theorem parseAddress_text (address : Address) :
    parseAddress (text address.val) = some address := by
  simp only [parseAddress, parseData_text, Option.bind_eq_bind, Option.bind_some,
    dif_pos address.property]

/-- The code of an account that delegates to an address, as EIP-7702 has it. -/
def delegation (address : Address) : List Byte := [239, 1, 0] ++ address.val

/-- `types.ParseDelegation` and `types.AddressToDelegation` of go-ethereum, and what is
    assumed of them: they read and write delegations. -/
structure Delegations where
  parseDelegation : List Byte → Option Address
  addressToDelegation : Address → List Byte
  parseDelegation_eq_some : ∀ code address,
    parseDelegation code = some address ↔ code = delegation address
  addressToDelegation_eq : ∀ address, addressToDelegation address = delegation address

/-! ## Decoding the difference -/

/-- A JSON nonce: a member that is missing or null, a string, an integer, or anything
    else. -/
inductive NonceWire where
  | absent
  | null
  | text (value : String)
  | number (value : Int)
  | other
deriving DecidableEq, Repr

/-- The members of `stateAccountWire` that are read here. -/
structure StateAccountWire where
  nonce : NonceWire
  code : Option String
deriving DecidableEq, Repr

/-- An account without members. -/
def StateAccountWire.empty : StateAccountWire := ⟨.absent, none⟩

/-- `stateDiffWire`: the accounts before and after, as the node sends them. -/
structure StateDiffWire where
  pre : Option (List (String × StateAccountWire))
  post : Option (List (String × StateAccountWire))

/-- `stateAccountEvidence`. -/
structure StateAccountEvidence where
  nonce : Uint64
  code : List Byte
deriving DecidableEq, Repr

/-- The account a Go map returns for a missing key. -/
def StateAccountEvidence.zero : StateAccountEvidence := ⟨0, []⟩

/-- `transactionStateEvidence`. -/
structure TransactionStateEvidence where
  pre : Map Address StateAccountEvidence
  post : Map Address StateAccountEvidence

/-- `canonicalStateNonce`; the canonical decimal text stands as its number. -/
def canonicalStateNonce : NonceWire → Except String (Option Uint64)
  | .absent | .null => .ok none
  | .text value =>
    match parseQuantity value with
    | some n =>
      if h : n < 18446744073709551616 then .ok (some ⟨n, h⟩)
      else .error "invalid Ethereum JSON-RPC quantity"
    | none => .error "invalid Ethereum JSON-RPC quantity"
  | .number value =>
    if h : 0 ≤ value ∧ value.toNat < 18446744073709551616 then .ok (some ⟨value.toNat, h.2⟩)
    else .error "json: cannot unmarshal number into Go value of type uint64"
  | .other => .error "json: cannot unmarshal value into Go value of type uint64"

/-- The nonce of an account; a missing one is zero. -/
def decodeStateNonce (nonce : NonceWire) : Except String Uint64 :=
  match canonicalStateNonce nonce with
  | .ok value => .ok (value.getD 0)
  | .error _ => .error "state difference contains invalid quantity"

/-- The code of an account; a missing one is empty. -/
def decodeStateCode : Option String → Except String (List Byte)
  | none => .ok []
  | some text =>
    match parseData text with
    | some code => .ok code
    | none => .error "state difference contains invalid code"

/-- An account of the node's answer. -/
def decodeStateAccountEvidence (wire : StateAccountWire) : Except String StateAccountEvidence := do
  let nonce ← decodeStateNonce wire.nonce
  let code ← decodeStateCode wire.code
  pure ⟨nonce, code⟩

/-- `stateAccountPair`; a side that is present is the source's `hasPre` or `hasPost`. -/
structure StateAccountPair where
  pre : Option StateAccountWire
  post : Option StateAccountWire

/-- The accounts of one side under their addresses. -/
def parseAccounts (side : List (String × StateAccountWire)) :
    Except String (List (Address × StateAccountWire)) :=
  match side with
  | [] => .ok []
  | (text, account) :: rest =>
    match parseAddress text with
    | some address => do
        let parsed ← parseAccounts rest
        pure ((address, account) :: parsed)
    | none => .error "state difference contains invalid account address"

/-- The accounts of one side in a map: the loop that fills that side of `pairs`. -/
def accountMap (side : List (Address × StateAccountWire)) : Map Address StateAccountWire :=
  insertAll Prod.fst Prod.snd side ∅

/-- A member that the post side leaves out. -/
def NonceWire.missing (nonce : NonceWire) : Bool := nonce = .absent ∨ nonce = .null

/-- One round of the loop over `pairs`. -/
def decodePair (pair : StateAccountPair) :
    Except String (Option StateAccountEvidence × Option StateAccountEvidence) := do
  let preWire := pair.pre.getD .empty
  let postWire := pair.post.getD .empty
  let pre ← decodeStateAccountEvidence preWire
  let post ← decodeStateAccountEvidence postWire
  let filled : StateAccountEvidence := if pair.pre.isSome ∧ pair.post.isSome then
      ⟨if postWire.nonce.missing then pre.nonce else post.nonce,
       if postWire.code.isNone then pre.code else post.code⟩
    else post
  pure (pair.pre.map fun _ => pre, pair.post.map fun _ => filled)

/-- An entry that is written only when there is a value. -/
def insertSome {κ ν : Type} [DecidableEq κ] (k : κ) (v : Option ν) (m : Map κ ν) :
    Map κ ν :=
  match v with
  | some v => m.insert k v
  | none => m

/-- The loop over `pairs`. -/
def decodePairs (pre post : Map Address StateAccountWire) :
    List Address → TransactionStateEvidence → Except String TransactionStateEvidence
  | [], evidence => .ok evidence
  | address :: rest, evidence => do
      let (before, after) ← decodePair ⟨pre.lookup address, post.lookup address⟩
      decodePairs pre post rest
        ⟨insertSome address before evidence.pre, insertSome address after evidence.post⟩

/-- `decodeTransactionStateEvidence`.  The order of the walk over `pairs` decides only
    which of several errors is reported. -/
def decodeTransactionStateEvidence (wire : StateDiffWire) :
    Except String TransactionStateEvidence := do
  match wire.pre, wire.post with
  | some pre, some post =>
    let pre ← parseAccounts pre
    let post ← parseAccounts post
    decodePairs (accountMap pre) (accountMap post)
      (((accountMap pre).keys ∪ (accountMap post).keys).sort (· ≤ ·)) ⟨∅, ∅⟩
  | _, _ => throw "invalid state difference JSON"

/-! ## Replaying the authorizations -/

/-- `types.SetCodeAuthorization`; `signature` stands for `V`, `R` and `S`. -/
structure SetCodeAuthorization (G : Type) where
  chainID : Nat
  address : Address
  nonce : Uint64
  signature : G
deriving DecidableEq

/-- The parts of a transaction that are read here.  Only a set-code transaction carries
    authorizations, and it always has a recipient. -/
structure Transaction (G : Type) where
  recipient : Option Address
  setCodeAuthorizations : List (SetCodeAuthorization G)
  setCode_recipient : setCodeAuthorizations ≠ [] → recipient ≠ none

/-- What is known of the signature of an authorization. -/
inductive SignatureStatus where
  | unavailable
  | invalid
  | valid
deriving DecidableEq, Repr

/-- What became of an authorization. -/
inductive ApplicationStatus where
  | skipped
  | applied
deriving DecidableEq, Repr

/-- `skipReason`; `none` is the empty text. -/
inductive SkipReason where
  | none
  | wrongChainID
  | nonceOverflow
  | invalidSignature
  | authorityHasCode
  | nonceMismatch
deriving DecidableEq, Repr

/-- `eip7702AuthorizationResult`. -/
structure AuthorizationResult (G : Type) where
  index : Nat
  authorization : SetCodeAuthorization G
  authority : Option Address
  signatureStatus : SignatureStatus
  applicationStatus : ApplicationStatus
  skipReason : SkipReason
deriving DecidableEq

/-- How the code that a call executes is found. -/
inductive Resolution where
  | empty
  | direct
  | eip7702Delegate
  | unavailable
deriving DecidableEq, Repr

/-- `executionCodeResolution`; the evidence source is `prestate_tracer` unless the
    resolution is unavailable. -/
structure ExecutionCodeResolution (H : Type) where
  context : Address
  execution : Option Address
  codeHash : Option H
  resolution : Resolution
deriving DecidableEq

/-- The decimal digits of a text as a number. -/
def decimalNumber : List Char → Option Nat :=
  List.foldlM (fun n c =>
    if '0' ≤ c ∧ c ≤ '9' then some (10 * n + (c.toNat - 48)) else none) 0

/-- `new(big.Int).SetString(text, 10)` together with the check of its sign. -/
def parseChainID (text : String) : Option Nat :=
  let number := fun digits => if digits = [] then none else decimalNumber digits
  match text.toList with
  | '+' :: digits => number digits
  | '-' :: digits => (number digits).filter (· = 0)
  | digits => number digits

/-- `vm.PrecompiledContractsPrague`: the addresses 1 to 17. -/
def isPrecompile (address : Address) : Bool :=
  address.val.take 19 = List.replicate 19 0 ∧ address.val.getLast? ≠ some 0 ∧
    ∀ b ∈ address.val.getLast?, b ≤ 17

section Derive

variable {G H : Type} (delegations : Delegations)
  (authority : SetCodeAuthorization G → Option Address) (keccak256 : List Byte → H)

/-- The account a Go map returns. -/
def accountAt (state : Map Address StateAccountEvidence) (address : Address) :
    StateAccountEvidence := (state.lookup address).getD .zero

/-- The account after an authorization was applied. -/
def delegated (auth : SetCodeAuthorization G) : StateAccountEvidence :=
  ⟨auth.nonce + 1,
    if auth.address = zeroAddress then [] else delegations.addressToDelegation auth.address⟩

/-- One round of the loop over the authorizations. -/
def deriveAuthorization (chainID : Nat) (index : Nat) (auth : SetCodeAuthorization G)
    (state : Map Address StateAccountEvidence) :
    AuthorizationResult G × Map Address StateAccountEvidence :=
  let result : AuthorizationResult G := ⟨index, auth, none, .unavailable, .skipped, .none⟩
  if auth.chainID ≠ 0 ∧ auth.chainID ≠ chainID then
    ({ result with skipReason := .wrongChainID }, state)
  else if auth.nonce = maxUint64 then
    ({ result with skipReason := .nonceOverflow }, state)
  else match authority auth with
    | none => ({ result with signatureStatus := .invalid, skipReason := .invalidSignature }, state)
    | some address =>
      let result := { result with signatureStatus := .valid, authority := some address }
      -- an account that the trace does not list reads as an empty one
      let account := accountAt state address
      if account.code ≠ [] ∧ (delegations.parseDelegation account.code).isNone then
        ({ result with skipReason := .authorityHasCode }, state)
      else if account.nonce ≠ auth.nonce then
        ({ result with skipReason := .nonceMismatch }, state)
      else
        ({ result with applicationStatus := .applied },
          state.insert address (delegated delegations auth))

/-- The loop over the authorizations. -/
def deriveAuthorizations (chainID : Nat) : Nat → List (SetCodeAuthorization G) →
    Map Address StateAccountEvidence →
    List (AuthorizationResult G) × Map Address StateAccountEvidence
  | _, [], state => ([], state)
  | index, auth :: rest, state =>
    let (result, state) := deriveAuthorization delegations authority chainID index auth state
    let (results, state) := deriveAuthorizations chainID (index + 1) rest state
    (result :: results, state)

/-- The comparison of an applied authorization with the post side. -/
def checkResult (post state : Map Address StateAccountEvidence) (result : AuthorizationResult G) :
    Except String Unit :=
  match result.applicationStatus, result.authority with
  | .applied, some address =>
    match post.lookup address with
    | none => throw "applied authorization lacks post-state evidence"
    | some actual =>
      let expected := accountAt state address
      if actual.code ≠ expected.code ∨ actual.nonce < expected.nonce then
        throw "authorization result contradicts post-state evidence"
      else pure ()
  | _, _ => pure ()

/-- The code that runs in the context of an account. -/
def resolveExecution (state : Map Address StateAccountEvidence) (context : Address)
    (account : StateAccountEvidence) : ExecutionCodeResolution H :=
  match delegations.parseDelegation account.code with
  | some delegate =>
    match state.lookup delegate with
    | none =>
      if isPrecompile delegate then ⟨context, none, none, .empty⟩
      else ⟨context, some delegate, none, .unavailable⟩
    | some target =>
      if target.code = [] then ⟨context, none, none, .empty⟩
      else ⟨context, some delegate, some (keccak256 target.code), .eip7702Delegate⟩
  | none =>
    if account.code = [] then ⟨context, none, none, .empty⟩
    else ⟨context, some context, some (keccak256 account.code), .direct⟩

/-- The resolutions of all accounts, sorted by context. -/
def resolveExecutions (state : Map Address StateAccountEvidence) :
    List (ExecutionCodeResolution H) :=
  (state.keys.sort (· ≤ ·)).map fun context =>
    resolveExecution delegations keccak256 state context (accountAt state context)

/-- The increment of the sender's nonce, before the authorizations. -/
def bumpSender (tx : Transaction G) (sender : Address) (state : Map Address StateAccountEvidence) :
    Except String (Map Address StateAccountEvidence) :=
  if tx.setCodeAuthorizations ≠ [] ∧ tx.recipient ≠ none then
    match state.lookup sender with
    | none => throw "set-code transaction lacks sender pre-state evidence"
    | some account =>
      if account.nonce = maxUint64 then throw "sender nonce overflow"
      else pure (state.insert sender { account with nonce := account.nonce + 1 })
  else pure state

/-- `deriveEIP7702Evidence`: the outcomes of the authorizations and the code that is
    executed. -/
def deriveEIP7702Evidence (chainIDText : String) (tx : Option (Transaction G)) (sender : Address)
    (evidence : TransactionStateEvidence) :
    Except String (List (AuthorizationResult G) × List (ExecutionCodeResolution H)) := do
  match tx with
  | none => throw "transaction is nil"
  | some tx =>
    match parseChainID chainIDText with
    | none => throw "chain id is invalid"
    | some chainID =>
      let state ← bumpSender tx sender evidence.pre
      let (results, state) :=
        deriveAuthorizations delegations authority chainID 0 tx.setCodeAuthorizations state
      checkAll (checkResult evidence.post state) results
      pure (results, resolveExecutions delegations keccak256 state)

end Derive

end Enrich
