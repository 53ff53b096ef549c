import Mathlib.Data.Finmap
import Mathlib.Data.List.Lex
import Mathlib.Data.List.Sort
import Etherview.EnrichStateDiff
import Etherview.Texts

/-! # Trace normalization

    `internal/enrich/trace.go`: `NormalizeCallTracer` walks a nested `callTracer` answer in
    preorder, `NormalizeTraceAPI` sorts a flat `trace_*` answer by trace address and links
    the frames through a map of addresses.

    `json.Unmarshal` is a parameter of both functions; its results are the source's wire
    structs, where a raw member is the outcome of decoding it. -/

namespace Enrich

open Store MapUpdate Hex Transact

/-! ## Texts -/

/-- `strings.ToUpper`, up to letters whose upper case is outside ASCII. -/
def upperChar (c : Char) : Char := if 'a' ≤ c ∧ c ≤ 'z' then Char.ofNat (c.toNat - 32)
  else if c.toNat = 383 then 'S'
  else if c.toNat = 305 then 'I'
  else c

/-- `strings.ToLower`, up to letters whose lower case is outside ASCII. -/
def lowerChar (c : Char) : Char := if 'A' ≤ c ∧ c ≤ 'Z' then Char.ofNat (c.toNat + 32)
  else if c.toNat = 8490 then 'k'
  else if c.toNat = 304 then 'i'
  else c

/-- `strings.ToUpper` of an ASCII text. -/
def toUpper (text : String) : String := String.ofList (text.toList.map upperChar)

/-- `strings.ToLower` of an ASCII text. -/
def toLower (text : String) : String := String.ofList (text.toList.map lowerChar)

/-- The bytes that `encoding/hex` reads. -/
def decodeString (digits : List Char) : Except String (List Byte) := match decode digits with
  | some bytes => .ok bytes
  | none => .error "encoding/hex: invalid digits"

/-- An error behind its context. -/
def inContext {α : Type} (context : String) (x : Except String α) : Except String α :=
  x.mapError fun err => context ++ ": " ++ err

/-- The bytes of a hexadecimal text of a given size. -/
def decodeFixedHex (value : String) (size : Nat) : Except String (List Byte) :=
  match value.toList with
  | '0' :: 'x' :: digits =>
    if value.utf8ByteSize ≠ 2 + size * 2 then
      .error ("value must be " ++ toString size ++ " bytes")
    else inContext "invalid hex" (decodeString digits)
  | _ => .error "value must start with 0x"

/-- `enrich.ParseAddress`. -/
def parseTraceAddress (value : String) : Except String Address := do
  let decoded ← inContext "parse address" (decodeFixedHex value 20)
  if h : decoded.length = 20 then pure ⟨decoded, h⟩
  else throw "parse address: encoding/hex: invalid digits"

/-- `common.Hash`. -/
abbrev Word := { bytes : List Byte // bytes.length = 32 }

/-- The zero hash. -/
def zeroWord : Word := ⟨List.replicate 32 0, List.length_replicate⟩

/-- `enrich.ParseWord`. -/
def parseWord (value : String) : Except String Word := do
  let decoded ← inContext "parse word" (decodeFixedHex value 32)
  if h : decoded.length = 32 then pure ⟨decoded, h⟩
  else throw "parse word: encoding/hex: invalid digits"

/-- An address that may be missing. -/
def optionalTraceAddress (value : String) : Except String (Option Address) :=
  if value = "" ∨ value = "0x" then .ok none
  else do
    let address ← parseTraceAddress value
    pure (some address)

/-- The bytes of a hexadecimal text of any even size. -/
def decodeDataHex (value : String) : Except String (List Byte) := match value.toList with
  | '0' :: 'x' :: digits =>
    if value.utf8ByteSize % 2 ≠ 0 then .error "data must contain an even number of hex digits"
    else inContext "invalid data hex" (decodeString digits)
  | _ => .error "data must start with 0x"

/-- Bytes that may be missing. -/
def optionalTraceData (value : String) : Except String (List Byte) :=
  if value = "" then .ok [] else decodeDataHex value

/-- A quantity is hexadecimal without leading zeros; it may be missing. -/
def validateTraceQuantity (value : String) : Except String Unit := if value = "" then .ok ()
  else match value.toList with
    | '0' :: 'x' :: first :: rest =>
      if rest ≠ [] ∧ first = '0' then .error "quantity has a leading zero"
      else failIf ((first :: rest).any fun c => (digitValue c).isNone)
        "quantity contains a non-hex digit"
    | _ => .error "quantity must start with 0x and contain a digit"

/-- The functions of go-ethereum that logs are read with: `hexutil.Decode`,
    `hexutil.DecodeUint64` and `common.BytesToHash`.  Nothing is assumed of them. -/
structure HexUtil where
  decode : String → Option (List Byte)
  decodeUint64 : String → Option Nat
  bytesToHash : List Byte → Word

/-! ## Frames -/

/-- Go's `uint32`. -/
abbrev Uint32 := Fin 4294967296

/-- The conversion `uint32(n)`. -/
def uint32 (n : Nat) : Uint32 := Fin.ofNat 4294967296 n

/-- `TraceLimits`. -/
structure TraceLimits where
  maxPayloadBytes : Int
  maxFrames : Int
  maxDepth : Int
  maxDataBytes : Int
  maxTextBytes : Int
  maxLogs : Int
  maxLogDataBytes : Int
  maxBlockPayloadBytes : Int
  maxBlockFrames : Int
  maxBlockDataBytes : Int
  maxBlockTextBytes : Int
  maxBlockLogs : Int
  maxBlockLogDataBytes : Int

/-- All limits are positive. -/
def TraceLimits.validate (limits : TraceLimits) : Except String Unit :=
  failIf (limits.maxPayloadBytes ≤ 0 ∨ limits.maxFrames ≤ 0 ∨ limits.maxDepth ≤ 0 ∨
    limits.maxDataBytes ≤ 0 ∨ limits.maxTextBytes ≤ 0 ∨ limits.maxLogs ≤ 0 ∨
    limits.maxLogDataBytes ≤ 0 ∨ limits.maxBlockPayloadBytes ≤ 0 ∨
    limits.maxBlockFrames ≤ 0 ∨
    limits.maxBlockDataBytes ≤ 0 ∨ limits.maxBlockTextBytes ≤ 0 ∨
    limits.maxBlockLogs ≤ 0 ∨
    limits.maxBlockLogDataBytes ≤ 0) "all trace limits must be positive"

/-- `ErrTraceLimit` with a detail. -/
def traceLimit (detail : String) : String := "trace exceeds configured limit: " ++ detail

/-- The normalized types; `other` is a text that validation rejects. -/
inductive TraceType where
  | call
  | callcode
  | staticcall
  | delegatecall
  | create
  | create2
  | selfdestruct
  | reward
  | other (text : String)
deriving DecidableEq, Repr

/-- The type of an upper-case text. -/
def TraceType.ofText (text : String) : TraceType := if text = "CALL" then .call
  else if text = "CALLCODE" then .callcode
  else if text = "STATICCALL" then .staticcall
  else if text = "DELEGATECALL" then .delegatecall
  else if text = "CREATE" then .create
  else if text = "CREATE2" then .create2
  else if text = "SELFDESTRUCT" then .selfdestruct
  else if text = "REWARD" then .reward
  else .other text

/-- The text of a type, as it is stored. -/
def TraceType.text : TraceType → String
  | .call => "CALL"
  | .callcode => "CALLCODE"
  | .staticcall => "STATICCALL"
  | .delegatecall => "DELEGATECALL"
  | .create => "CREATE"
  | .create2 => "CREATE2"
  | .selfdestruct => "SELFDESTRUCT"
  | .reward => "REWARD"
  | .other text => text

/-- `TraceLog`. -/
structure TraceLog where
  address : Address
  topics : List Word
  data : List Byte
  index : Nat
  position : Nat
deriving DecidableEq

/-- `CallFrame`; the members that a later stage fills are left out. -/
structure CallFrame where
  index : Nat
  parentIndex : Int
  traceAddress : List Uint32
  type : TraceType
  fromAddress : Option Address
  toAddress : Option Address
  codeAddress : Option Address
  value : String
  gas : String
  gasUsed : String
  input : List Byte
  output : List Byte
  error : String
  revertReason : String
  directReverted : Bool
  reverted : Bool
  logs : List TraceLog
deriving DecidableEq

/-- `traceBuilder`: the frames so far and what counts against the limits. -/
structure TraceBuilder where
  frames : List CallFrame
  dataBytes : Nat
  textBytes : Nat
  logs : Nat
  logBytes : Nat

/-- The builder before the first frame. -/
def TraceBuilder.empty : TraceBuilder := ⟨[], 0, 0, 0, 0⟩

/-- Counts bytes of input and output. -/
def TraceBuilder.addData (limits : TraceLimits) (builder : TraceBuilder) (size : Nat) :
    Except String TraceBuilder :=
  if (builder.dataBytes : Int) > limits.maxDataBytes - size then
    .error (traceLimit "input/output bytes")
  else .ok { builder with dataBytes := builder.dataBytes + size }

/-- Counts bytes of error texts. -/
def TraceBuilder.addText (limits : TraceLimits) (builder : TraceBuilder) (size : Nat) :
    Except String TraceBuilder :=
  if (builder.textBytes : Int) > limits.maxTextBytes - size then
    .error (traceLimit "error text bytes")
  else .ok { builder with textBytes := builder.textBytes + size }

/-- The address whose code runs, next to the address in whose context it runs. -/
def normalizeCallExecutionContext (frame : CallFrame) : CallFrame := match frame.type with
  | .call | .staticcall => { frame with codeAddress := frame.toAddress }
  | .delegatecall | .callcode =>
    { frame with codeAddress := frame.toAddress, toAddress := frame.fromAddress }
  | _ => frame

/-- The addresses that a frame of its type needs. -/
def validateTraceFrameAddresses (frame : CallFrame) : Except String Unit := match frame.type with
  | .call | .callcode | .staticcall | .delegatecall | .selfdestruct =>
    failIf (frame.fromAddress = none ∨ frame.toAddress = none)
      (frame.type.text ++ " frame requires from and to addresses")
  | .create | .create2 =>
    failIf (frame.fromAddress = none ∨ (frame.toAddress = none ∧ frame.directReverted = false))
      (frame.type.text ++ " frame requires a sender and successful result address")
  | .reward => failIf (frame.toAddress = none) "REWARD frame requires an author address"
  | .other text => .error ("unsupported normalized trace type \"" ++ text ++ "\"")

/-- A transaction starts with a call or a creation. -/
def checkRootType (path : List Uint32) (type : TraceType) : Except String Unit :=
  failIf (path = [] ∧ type ≠ .call ∧ type ≠ .create)
    ("transaction root has invalid type \"" ++ type.text ++ "\"")

/-- The checks of the three quantities, whose order a Go map leaves open. -/
def validateQuantities (value gas gasUsed : String) : Except String Unit := do
  inContext "value" (validateTraceQuantity value)
  inContext "gas" (validateTraceQuantity gas)
  inContext "gasUsed" (validateTraceQuantity gasUsed)

/-- A path as the verb `%v` prints it. -/
def pathText (path : List Uint32) : String :=
  "[" ++ " ".intercalate (path.map fun part => toString part.val) ++ "]"

/-! ## `NormalizeCallTracer` -/

/-- A log as the node sends it. -/
structure CallTracerLogWire where
  address : String
  topics : List String
  data : String
  index : String
  position : String

/-- `callTracerWire` without its calls. -/
structure CallTracerWire where
  type : String
  fromText : String
  toText : String
  value : String
  gas : String
  gasUsed : String
  input : String
  output : String
  error : String
  revertReason : String
  logs : List CallTracerLogWire

/-- A raw frame: what decoding it gives, with its raw calls. -/
inductive CallTracerRaw where
  | undecodable (err : String)
  | frame (wire : CallTracerWire) (calls : List CallTracerRaw)

/-- The type of a frame of `callTracer`. -/
def normalizeCallTracerType (value : String) : Except String TraceType :=
  let upper := toUpper (Texts.trimSpace value)
  let text := if upper = "SUICIDE" then "SELFDESTRUCT" else upper
  match TraceType.ofText text with
  | .other text => .error ("unsupported callTracer type \"" ++ text ++ "\"")
  | .reward => .error ("unsupported callTracer type \"" ++ text ++ "\"")
  | type => .ok type

section CallTracer

variable (hexutil : HexUtil) (limits : TraceLimits)

/-- The topics of a log. -/
def callTopics (logIndex : Nat) : Nat → List String → Except String (List Word)
  | _, [] => .ok []
  | index, encoded :: rest =>
    let invalid := "log " ++ toString logIndex ++ " topic " ++ toString index ++ " is invalid"
    match hexutil.decode encoded with
    | some bytes =>
      if bytes.length ≠ 32 then .error invalid
      else do
        let topics ← callTopics logIndex (index + 1) rest
        pure (hexutil.bytesToHash bytes :: topics)
    | none => .error invalid

/-- One round of the loop of `callLogs`. -/
def callLog (index : Nat) (wire : CallTracerLogWire) (builder : TraceBuilder) :
    Except String (TraceLog × TraceBuilder) :=
  let label := "log " ++ toString index
  match optionalTraceAddress wire.address with
  | .ok (some address) =>
    if wire.topics.length > 4 then .error (label ++ " has too many topics")
    else do
      let topics ← callTopics hexutil index 0 wire.topics
      match optionalTraceData wire.data with
      | .ok data =>
        if (builder.logBytes : Int) > limits.maxLogDataBytes - data.length then
          .error (traceLimit "log data bytes")
        else match hexutil.decodeUint64 wire.index with
          | none => .error (label ++ " index is invalid")
          | some logIndex => match hexutil.decodeUint64 wire.position with
            | none => .error (label ++ " position is invalid")
            | some position =>
              if (position : Int) > limits.maxFrames then
                .error (label ++ " position is invalid")
              else .ok (⟨address, topics, data, logIndex, position⟩,
                { builder with logBytes := builder.logBytes + data.length })
      | .error _ => .error (label ++ " data is invalid")
  | _ => .error (label ++ " address is invalid")

/-- The loop of `callLogs`. -/
def callLogsFrom : Nat → List CallTracerLogWire → TraceBuilder →
    Except String (List TraceLog × TraceBuilder)
  | _, [], builder => .ok ([], builder)
  | index, wire :: rest, builder => do
      let (log, builder) ← callLog hexutil limits index wire builder
      let (logs, builder) ← callLogsFrom (index + 1) rest builder
      pure (log :: logs, builder)

/-- The logs of a frame, counted before they are read. -/
def callLogs (wires : List CallTracerLogWire) (builder : TraceBuilder) :
    Except String (List TraceLog × TraceBuilder) :=
  if wires = [] then .ok ([], builder)
  else if (builder.logs : Int) > limits.maxLogs - wires.length then
    .error (traceLimit "log count")
  else callLogsFrom hexutil limits 0 wires { builder with logs := builder.logs + wires.length }

/-- The logs stand between the calls of their frame. -/
def checkPositions (calls : Nat) : Nat → List TraceLog → Except String Unit
  | _, [] => .ok ()
  | index, log :: rest =>
    if log.position > calls then
      .error ("log " ++ toString index ++ " position exceeds frame calls")
    else checkPositions calls (index + 1) rest

/-- The frame of a wire frame, without its calls. -/
def callFrame (wire : CallTracerWire) (calls : Nat) (path : List Uint32) (parent : Int)
    (ancestorReverted : Bool) (builder : TraceBuilder) :
    Except String (CallFrame × TraceBuilder) := do
  let type ← normalizeCallTracerType wire.type
  let fromAddress ← inContext "from" (optionalTraceAddress wire.fromText)
  let toAddress ← inContext "to" (optionalTraceAddress wire.toText)
  let input ← inContext "input" (optionalTraceData wire.input)
  let output ← inContext "output" (optionalTraceData wire.output)
  let builder ← builder.addData limits (input.length + output.length)
  let builder ← builder.addText limits (wire.error.utf8ByteSize + wire.revertReason.utf8ByteSize)
  validateQuantities wire.value wire.gas wire.gasUsed
  -- a reason without an error counts as a revert too
  let direct : Bool := wire.error ≠ "" ∨ wire.revertReason ≠ ""
  let (logs, builder) ← callLogs hexutil limits wire.logs builder
  checkPositions calls 0 logs
  let frame := normalizeCallExecutionContext
    { index := 0, parentIndex := parent, traceAddress := path, type := type
      fromAddress := fromAddress, toAddress := toAddress, codeAddress := none
      value := wire.value, gas := wire.gas, gasUsed := wire.gasUsed
      input := input, output := output, error := wire.error, revertReason := wire.revertReason
      directReverted := direct, reverted := ancestorReverted || direct, logs := logs }
  validateTraceFrameAddresses frame
  checkRootType path frame.type
  pure (frame, builder)

mutual

/-- Appends a frame and then its calls. -/
def appendCallTracer : CallTracerRaw → List Uint32 → Int → Bool → TraceBuilder →
    Except String TraceBuilder
  | raw, path, parent, ancestorReverted, builder =>
    if (path.length : Int) > limits.maxDepth then .error (traceLimit "depth")
    else if (builder.frames.length : Int) ≥ limits.maxFrames then
      .error (traceLimit "frame count")
    else match raw with
      | .undecodable err => .error ("decode callTracer frame " ++ pathText path ++ ": " ++ err)
      | .frame wire calls => do
          let (frame, builder) ← inContext ("callTracer frame " ++ pathText path)
            (callFrame hexutil limits wire calls.length path parent ancestorReverted builder)
          let index := builder.frames.length
          let frame := { frame with index := index }
          appendCalls calls path 0 index frame.reverted
            { builder with frames := builder.frames ++ [frame] }

/-- The loop over the calls of a frame. -/
def appendCalls : List CallTracerRaw → List Uint32 → Nat → Int → Bool → TraceBuilder →
    Except String TraceBuilder
  | [], _, _, _, _, builder => .ok builder
  | child :: rest, path, childIndex, parent, reverted, builder => do
      let builder ← appendCallTracer child (path ++ [uint32 childIndex]) parent reverted builder
      appendCalls rest path (childIndex + 1) parent reverted builder

end

/-- Where a trace comes from. -/
inductive TraceSource where
  | callTracer
  | traceAPI
deriving DecidableEq, Repr

/-- `NormalizedTrace` of a complete trace. -/
structure NormalizedTrace where
  source : TraceSource
  frames : List CallFrame
deriving DecidableEq

/-- `NormalizeCallTracer`: the frames of a nested trace. -/
def normalizeCallTracer (unmarshal : String → CallTracerRaw) (data : String) :
    Except String NormalizedTrace := do
  limits.validate
  if (data.utf8ByteSize : Int) > limits.maxPayloadBytes then throw (traceLimit "payload bytes")
  else if Texts.trimSpace data = "" ∨ Texts.trimSpace data = "null" then
    throw "callTracer returned no root frame"
  else do
    let builder ← appendCallTracer hexutil limits (unmarshal data) [] (-1) false .empty
    pure ⟨.callTracer, builder.frames⟩

end CallTracer

/-! ## `NormalizeTraceAPI` -/

/-- The action of a frame of `trace_*`, as the node sends it. -/
structure TraceActionWire where
  callType : String
  fromText : String
  toText : String
  address : String
  refundAddress : String
  author : String
  value : String
  balance : String
  gas : String
  input : String
  init : String
  creationMethod : String

/-- An action without fields. -/
def TraceActionWire.empty : TraceActionWire := ⟨"", "", "", "", "", "", "", "", "", "", "", ""⟩

/-- The result of a frame of `trace_*`, as the node sends it. -/
structure TraceResultWire where
  address : String
  gasUsed : String
  output : String
  code : String

/-- A result without fields. -/
def TraceResultWire.empty : TraceResultWire := ⟨"", "", "", ""⟩

/-- A raw member that holds a number. -/
inductive NumberWire where
  | missing
  | text (value : String)
  | literal (raw : String)

/-- `traceAPIWire`; `action` and `result` are the outcomes of decoding these members, and
    a result that is missing or null is `none`. -/
structure TraceAPIWire where
  action : Except String TraceActionWire
  result : Option (Except String TraceResultWire)
  error : String
  subtraces : Int
  traceAddress : List Nat
  type : String
  blockHash : String
  blockNumber : NumberWire
  transactionHash : String
  transactionPosition : NumberWire

/-- `TraceIdentity`: the transaction that a trace is asked for. -/
structure TraceIdentity where
  blockHash : Word
  blockNumber : Uint64
  transactionHash : Word
  transactionIndex : Uint64

/-- An identity has hashes. -/
def TraceIdentity.validate (identity : TraceIdentity) : Except String Unit :=
  failIf (identity.blockHash = zeroWord ∨ identity.transactionHash = zeroWord)
    "trace identity requires non-zero block and transaction hashes"

/-- `strconv.ParseUint` on digits that were read as a number. -/
def parseUint64 : Option Nat → Except String Uint64
  | some n =>
    if h : n < 18446744073709551616 then .ok ⟨n, h⟩
    else .error "strconv.ParseUint: value out of range"
  | none => .error "strconv.ParseUint: invalid syntax"

/-- The number of a non-empty decimal text. -/
def decimalText (digits : List Char) : Option Nat :=
  if digits = [] then none else decimalNumber digits

/-- A number, as a JSON number or as a hexadecimal text. -/
def parseTraceWireUint64 : NumberWire → Except String Uint64
  | .missing => .error "missing trace identity number"
  | .text value =>
    match value.toList with
    | '0' :: 'x' :: digits => do
        validateTraceQuantity value
        parseUint64 (number digits)
    | digits =>
      if digits = [] ∨ (digits.length > 1 ∧ digits.head? = some '0') then
        .error "trace identity decimal is not canonical"
      else parseUint64 (decimalText digits)
  | .literal raw =>
    let trimmed := (Texts.trimSpace raw).toList
    if trimmed = [] ∨ trimmed = "null".toList then .error "missing trace identity number"
    else if trimmed.any (fun c => c ∈ ['.', 'e', 'E', '+', '-']) ∨
        (trimmed.length > 1 ∧ trimmed.head? = some '0') then
      .error "trace identity number is not a canonical uint64"
    else parseUint64 (decimalText trimmed)

/-- One comparison of `validateTraceAPIIdentity`. -/
def expect {α : Type} [DecidableEq α] (found : Except String α) (expected : α) (err : String) :
    Except String Unit :=
  match found with
  | .ok value => failIf (value ≠ expected) err
  | .error _ => .error err

/-- A frame is of the transaction that was asked for. -/
def validateTraceAPIIdentity (wire : TraceAPIWire) (expected : TraceIdentity) :
    Except String Unit := do
  expect (parseWord wire.transactionHash) expected.transactionHash
    "transaction hash does not match requested transaction"
  expect (parseWord wire.blockHash) expected.blockHash
    "block hash does not match canonical inclusion"
  expect (parseTraceWireUint64 wire.blockNumber) expected.blockNumber
    "block number does not match canonical inclusion"
  expect (parseTraceWireUint64 wire.transactionPosition) expected.transactionIndex
    "transaction position does not match canonical inclusion"

/-- The branch of `traceAPIFrame` for calls. -/
def callAction (action : TraceActionWire) (result : TraceResultWire) (frame : CallFrame) :
    Except String CallFrame := do
  let type := if toUpper action.callType = "" then .call else .ofText (toUpper action.callType)
  let fromAddress ← inContext "from" (optionalTraceAddress action.fromText)
  let toAddress ← inContext "to" (optionalTraceAddress action.toText)
  let input ← inContext "input" (optionalTraceData action.input)
  let output ← inContext "output" (optionalTraceData result.output)
  pure { frame with
    type := type, fromAddress := fromAddress, toAddress := toAddress
    value := action.value, gas := action.gas, gasUsed := result.gasUsed
    input := input, output := output }

/-- The branch of `traceAPIFrame` for creations. -/
def createAction (type : String) (action : TraceActionWire) (result : TraceResultWire)
    (frame : CallFrame) : Except String CallFrame := do
  let fromAddress ← inContext "from" (optionalTraceAddress action.fromText)
  let toAddress ← inContext "result address" (optionalTraceAddress result.address)
  let input ← inContext "init" (optionalTraceData action.init)
  let output ← inContext "code" (optionalTraceData result.code)
  pure { frame with
    type := if toLower type = "create2" ∨ toLower action.creationMethod = "create2" then .create2
      else .create
    fromAddress := fromAddress, toAddress := toAddress
    value := action.value, gas := action.gas, gasUsed := result.gasUsed
    input := input, output := output }

/-- The branch of `traceAPIFrame` for self-destructions. -/
def selfdestructAction (action : TraceActionWire) (frame : CallFrame) :
    Except String CallFrame := do
  let fromAddress ← inContext "address" (optionalTraceAddress action.address)
  let toAddress ← inContext "refund address" (optionalTraceAddress action.refundAddress)
  pure { frame with
    type := .selfdestruct, fromAddress := fromAddress, toAddress := toAddress
    value := action.balance }

/-- The branch of `traceAPIFrame` for rewards. -/
def rewardAction (action : TraceActionWire) (frame : CallFrame) : Except String CallFrame := do
  let toAddress ← inContext "author" (optionalTraceAddress action.author)
  pure { frame with type := .reward, toAddress := toAddress, value := action.value }

/-- The switch of `traceAPIFrame`. -/
def actionFrame (type : String) (action : TraceActionWire) (result : TraceResultWire)
    (frame : CallFrame) : Except String CallFrame :=
  let lower := toLower type
  if lower = "call" then callAction action result frame
  else if lower = "create" ∨ lower = "create2" then createAction type action result frame
  else if lower = "suicide" ∨ lower = "selfdestruct" then selfdestructAction action frame
  else if lower = "reward" then rewardAction action frame
  else .error ("unsupported trace type \"" ++ type ++ "\"")

section TraceAPI

variable (limits : TraceLimits)

/-- The frame of a wire frame of `trace_*`. -/
def traceAPIFrame (wire : TraceAPIWire) (path : List Uint32) (builder : TraceBuilder) :
    Except String (CallFrame × TraceBuilder) := do
  let action ← inContext "action" wire.action
  let result ← inContext "result" (wire.result.getD (.ok .empty))
  let direct : Bool := wire.error ≠ ""
  let builder ← builder.addText limits wire.error.utf8ByteSize
  let frame ← actionFrame wire.type action result
    { index := 0, parentIndex := 0, traceAddress := path, type := .other ""
      fromAddress := none, toAddress := none, codeAddress := none
      value := "", gas := "", gasUsed := "", input := [], output := []
      error := wire.error, revertReason := "", directReverted := direct, reverted := direct
      logs := [] }
  validateQuantities frame.value frame.gas frame.gasUsed
  let builder ← builder.addData limits (frame.input.length + frame.output.length)
  let frame := normalizeCallExecutionContext frame
  validateTraceFrameAddresses frame
  pure (frame, builder)

/-- `pendingTraceFrame`; of the wire only the number of subtraces is read again. -/
structure PendingTraceFrame where
  subtraces : Int
  frame : CallFrame

/-- The path of a frame, each part of 32 bits. -/
def tracePath : List Nat → Except String (List Uint32)
  | [] => .ok []
  | part :: rest =>
    if part > 4294967295 then .error "trace address component exceeds uint32"
    else do
      let path ← tracePath rest
      pure (uint32 part :: path)

/-- One round of the loop that decodes the frames. -/
def decodeFrame (identity : TraceIdentity) (index : Nat) (wire : TraceAPIWire)
    (builder : TraceBuilder) : Except String (PendingTraceFrame × TraceBuilder) := do
  inContext ("trace_* frame " ++ toString index ++ " identity")
    (validateTraceAPIIdentity wire identity)
  if wire.subtraces < 0 ∨ wire.subtraces > limits.maxFrames then
    throw ("trace_* frame " ++ toString index ++ " has invalid subtrace count")
  else if (wire.traceAddress.length : Int) > limits.maxDepth then throw (traceLimit "depth")
  else do
    let path ← tracePath wire.traceAddress
    let (frame, builder) ← inContext ("trace_* frame " ++ pathText path)
      (traceAPIFrame limits wire path builder)
    pure (⟨wire.subtraces, frame⟩, builder)

/-- The loop that decodes the frames. -/
def decodeFrames (identity : TraceIdentity) : Nat → List TraceAPIWire → TraceBuilder →
    Except String (List PendingTraceFrame)
  | _, [], _ => .ok []
  | index, wire :: rest, builder => do
      let (item, builder) ← decodeFrame limits identity index wire builder
      let items ← decodeFrames identity (index + 1) rest builder
      pure (item :: items)

end TraceAPI

/-- Paths in the order of the walk: parents first, children by index. -/
def compareTracePath : List Uint32 → List Uint32 → Int
  | a :: left, b :: right =>
    if a < b then -1 else if a > b then 1 else compareTracePath left right
  | left, right => (left.length : Int) - right.length

/-- The order that `sort.Slice` sorts by. -/
def PendingTraceFrame.le (left right : PendingTraceFrame) : Prop :=
  compareTracePath left.frame.traceAddress right.frame.traceAddress ≤ 0

instance : DecidableRel PendingTraceFrame.le := fun _ _ => inferInstanceAs (Decidable (_ ≤ _))

/-- The text that a path is found under. -/
def tracePathKey (path : List Uint32) : String :=
  ".".intercalate (path.map fun part => toString part.val)

/-- The variables of the linking loop. -/
structure LinkState where
  indices : Map String Nat
  frames : List CallFrame
  children : Map String Nat
  rootCount : Nat

/-- Before the first frame is linked. -/
def LinkState.start : LinkState := ⟨∅, [], ∅, 0⟩

/-- One round of the linking loop.  The subtraces of a parent come from `pending`, its
    reverted flag from the frames linked before. -/
def linkFrame (pending : List PendingTraceFrame) (state : LinkState) (item : PendingTraceFrame) :
    Except String LinkState :=
  let path := item.frame.traceAddress
  let key := tracePathKey path
  let index := state.frames.length
  if (state.indices.lookup key).isSome then
    .error ("duplicate trace address " ++ pathText path)
  else match path.getLast? with
    | none =>
      if item.frame.type ≠ .call ∧ item.frame.type ≠ .create then
        .error ("transaction root has invalid type \"" ++ item.frame.type.text ++ "\"")
      else .ok { state with
          indices := state.indices.insert key index
          frames := state.frames ++ [{ item.frame with index := index, parentIndex := -1 }]
          rootCount := state.rootCount + 1 }
    | some childIndex =>
      let parentKey := tracePathKey path.dropLast
      match state.indices.lookup parentKey with
      | none => .error ("trace address " ++ pathText path ++ " has no parent")
      | some parent =>
        -- the source converts the number of subtraces to `uint32`
        if childIndex.val ≥ ((pending[parent]?.elim 0 (·.subtraces)) % 4294967296).toNat then
          .error ("trace address " ++ pathText path ++ " exceeds parent subtrace count")
        else .ok { state with
            indices := state.indices.insert key index
            frames := state.frames ++ [{ item.frame with
                  index := index, parentIndex := parent
                  reverted := item.frame.directReverted ||
                    (state.frames[parent]?.elim false (·.reverted)) }]
            children := adjust 0 (· + 1) parentKey state.children }

/-- The linking loop. -/
def linkFrames (pending : List PendingTraceFrame) :
    List PendingTraceFrame → LinkState → Except String LinkState
  | [], state => .ok state
  | item :: rest, state => do
      let state ← linkFrame pending state item
      linkFrames pending rest state

/-- The comparison of declared and found subtraces. -/
def checkSubtraces (children : Map String Nat) (item : PendingTraceFrame) : Except String Unit :=
  let found := (children.lookup (tracePathKey item.frame.traceAddress)).getD 0
  failIf ((found : Int) ≠ item.subtraces)
    ("trace address " ++ pathText item.frame.traceAddress ++ " declares " ++
      toString item.subtraces ++ " subtraces but has " ++ toString found)

/-- Everything after the frames are decoded. -/
def linkTrace (pending : List PendingTraceFrame) : Except String NormalizedTrace := do
  let sorted := pending.insertionSort PendingTraceFrame.le
  let state ← linkFrames sorted sorted .start
  failIf (state.rootCount ≠ 1)
    ("trace_transaction returned " ++ toString state.rootCount ++ " transaction roots")
  checkAll (checkSubtraces state.children) sorted
  pure ⟨.traceAPI, state.frames⟩

/-- `NormalizeTraceAPI`: the frames of a flat trace, in the order of the walk. -/
def normalizeTraceAPI (limits : TraceLimits)
    (unmarshal : String → Except String (List TraceAPIWire)) (data : String)
    (identity : TraceIdentity) : Except String NormalizedTrace := do
  limits.validate
  identity.validate
  if (data.utf8ByteSize : Int) > limits.maxPayloadBytes then throw (traceLimit "payload bytes")
  else do
    let wires ← inContext "decode trace_* response" (unmarshal data)
    if wires = [] then throw "trace_transaction returned no transaction root frame"
    else if (wires.length : Int) > limits.maxFrames then throw (traceLimit "frame count")
    else do
      let pending ← decodeFrames limits identity 0 wires .empty
      linkTrace pending

end Enrich
