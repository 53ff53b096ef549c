import Mathlib.Algebra.BigOperators.Group.List.Basic
import Mathlib.Algebra.Order.Ring.Nat
import Etherview.EnrichTrace
import Etherview.RoseTree

/-! # Call trees and their nested encoding

    A call tree is the common meaning of a `callTracer` answer and of a `trace_*` answer.
    `encodeNested` and `encodeFrame` are its two encodings, and `places` says where a
    preorder walk puts its nodes.

    `appendCallTracer_places` is the recursive normalizer's half of the comparison: on an
    encoded tree, what it appends is `places`, and what it accepts is decoded in every
    field, within the limits. -/

namespace Enrich

open Store Hex Transact RoseTree List

/-! ## Call trees -/

/-- The kinds of calls that both kinds of traces have. -/
inductive CallKind where
  | call
  | staticcall
  | delegatecall
  | callcode
  | create
  | create2
  | selfdestruct
deriving DecidableEq, Repr

/-- The type of a frame of this kind. -/
def CallKind.type : CallKind → TraceType
  | .call => .call
  | .staticcall => .staticcall
  | .delegatecall => .delegatecall
  | .callcode => .callcode
  | .create => .create
  | .create2 => .create2
  | .selfdestruct => .selfdestruct

/-- A node: its kind and the texts of its fields.  A revert reason comes with an error. -/
structure CallNode where
  kind : CallKind
  fromText : String
  toText : String
  value : String
  gas : String
  gasUsed : String
  input : String
  output : String
  error : String
  revertReason : String
  logs : List CallTracerLogWire
  reason_error : error = "" → revertReason = ""

/-- A call with an error. -/
def CallNode.failed (node : CallNode) : Bool := node.error ≠ ""

/-- The sender of a call, if its text is an address. -/
def CallNode.sender (node : CallNode) : Option Address :=
  match optionalTraceAddress node.fromText with
  | .ok address => address
  | .error _ => none

/-- The calls of a transaction. -/
abbrev CallTree := RoseTree.Tree CallNode

/-! ## The two encodings -/

/-- A frame of `callTracer`. -/
def CallNode.wire (node : CallNode) : CallTracerWire where
  type := node.kind.type.text
  fromText := node.fromText
  toText := node.toText
  value := node.value
  gas := node.gas
  gasUsed := node.gasUsed
  input := node.input
  output := node.output
  error := node.error
  revertReason := node.revertReason
  logs := node.logs

mutual

/-- The answer of `callTracer` for a tree. -/
def encodeNested : CallTree → CallTracerRaw
  | .node node children => .frame node.wire (encodeCalls children)

/-- The answers for the calls of a frame. -/
def encodeCalls : List CallTree → List CallTracerRaw
  | [] => []
  | child :: rest => encodeNested child :: encodeCalls rest

end

/-- The text of `callType` or of `creationMethod`. -/
def CallKind.methodText : CallKind → String
  | .call => "call"
  | .staticcall => "staticcall"
  | .delegatecall => "delegatecall"
  | .callcode => "callcode"
  | .create => "create"
  | .create2 => "create2"
  | .selfdestruct => "selfdestruct"

/-- The `type` of a flat frame. -/
def CallKind.flatType : CallKind → String
  | .create | .create2 => "create"
  | .selfdestruct => "suicide"
  | _ => "call"

/-- The action of a flat frame. -/
def CallNode.action (node : CallNode) : TraceActionWire := match node.kind with
  | .create | .create2 =>
    { TraceActionWire.empty with
      fromText := node.fromText, value := node.value, gas := node.gas
      init := node.input, creationMethod := node.kind.methodText }
  | .selfdestruct =>
    { TraceActionWire.empty with
      address := node.fromText, refundAddress := node.toText, balance := node.value }
  | _ =>
    { TraceActionWire.empty with
      callType := node.kind.methodText, fromText := node.fromText, toText := node.toText
      value := node.value, gas := node.gas, input := node.input }

/-- The result of a flat frame: a failed call and a self-destruction have none. -/
def CallNode.result (node : CallNode) : Option TraceResultWire := if node.failed then none
  else match node.kind with
    | .create | .create2 =>
      some { TraceResultWire.empty with
        address := node.toText, gasUsed := node.gasUsed, code := node.output }
    | .selfdestruct => none
    | _ => some { TraceResultWire.empty with gasUsed := node.gasUsed, output := node.output }

/-- The identity members of a flat frame: any spelling that is read as the identity. -/
structure IdentityWire (identity : TraceIdentity) where
  blockHash : String
  blockNumber : NumberWire
  transactionHash : String
  transactionPosition : NumberWire
  blockHash_ok : parseWord blockHash = .ok identity.blockHash
  blockNumber_ok : parseTraceWireUint64 blockNumber = .ok identity.blockNumber
  transactionHash_ok : parseWord transactionHash = .ok identity.transactionHash
  transactionPosition_ok : parseTraceWireUint64 transactionPosition = .ok identity.transactionIndex

/-- A frame of `trace_*`. -/
def encodeFrame {identity : TraceIdentity} (spelling : IdentityWire identity)
    (pos : Position Nat CallNode) : TraceAPIWire where
  action := .ok pos.label.action
  result := pos.label.result.map .ok
  error := pos.label.error
  subtraces := pos.arity
  traceAddress := pos.path
  type := pos.label.kind.flatType
  blockHash := spelling.blockHash
  blockNumber := spelling.blockNumber
  transactionHash := spelling.transactionHash
  transactionPosition := spelling.transactionPosition

/-! ## Where a preorder walk puts the nodes -/

/-- The structural part of a frame. -/
structure Place where
  index : Nat
  parentIndex : Int
  traceAddress : List Uint32
  type : TraceType
  fromAddress : Option Address
  reverted : Bool
deriving DecidableEq

/-- What both normalizers have to agree on. -/
def CallFrame.place (frame : CallFrame) : Place where
  index := frame.index
  parentIndex := frame.parentIndex
  traceAddress := frame.traceAddress
  type := frame.type
  fromAddress := frame.fromAddress
  reverted := frame.reverted

mutual

/-- The places of a tree that hangs at a path below a parent, from an index on. -/
def places : CallTree → List Uint32 → Int → Bool → Nat → List Place
  | .node node children, path, parent, ancestorReverted, base =>
    ⟨base, parent, path, node.kind.type, node.sender, ancestorReverted || node.failed⟩ ::
      placesFrom children path 0 base (ancestorReverted || node.failed) (base + 1)

/-- The places of the children from the `i`-th on. -/
def placesFrom : List CallTree → List Uint32 → Nat → Int → Bool → Nat → List Place
  | [], _, _, _, _, _ => []
  | child :: rest, path, i, parent, reverted, base =>
    places child (path ++ [uint32 i]) parent reverted base ++
      placesFrom rest path (i + 1) parent reverted
        (base + (places child (path ++ [uint32 i]) parent reverted base).length)

end

/-! ## One frame -/

/-- The addresses that a kind requires. -/
def CallKind.Complete (kind : CallKind) (source target : Option Address) (failed : Bool) : Prop :=
  match kind with
  | .call | .staticcall | .selfdestruct => source ≠ none ∧ target ≠ none
  | .delegatecall | .callcode => source ≠ none
  | .create | .create2 => source ≠ none ∧ (target = none → failed = true)

/-- A node whose fields decode and satisfy what its kind requires. -/
structure Decoded (node : CallNode) (source target : Option Address) (input output : List Byte) :
    Prop where
  fromText : optionalTraceAddress node.fromText = .ok source
  toText : optionalTraceAddress node.toText = .ok target
  inputText : optionalTraceData node.input = .ok input
  outputText : optionalTraceData node.output = .ok output
  value : validateTraceQuantity node.value = .ok ()
  gas : validateTraceQuantity node.gas = .ok ()
  gasUsed : validateTraceQuantity node.gasUsed = .ok ()
  complete : node.kind.Complete source target node.failed

/-- The bytes of the data fields. -/
def CallNode.dataSize (node : CallNode) : Nat :=
  match optionalTraceData node.input, optionalTraceData node.output with
  | .ok input, .ok output => input.length + output.length
  | _, _ => 0

/-- The bytes of the error texts. -/
def CallNode.textSize (node : CallNode) : Nat :=
  node.error.utf8ByteSize + node.revertReason.utf8ByteSize

theorem CallNode.sender_eq (node : CallNode) {source : Option Address}
    (h : optionalTraceAddress node.fromText = .ok source) : node.sender = source := by
  rw [CallNode.sender, h]

/-- The data of a call is its input and output. -/
theorem CallNode.dataSize_eq (node : CallNode) {input output : List Byte}
    (hinput : optionalTraceData node.input = .ok input)
    (houtput : optionalTraceData node.output = .ok output) :
    node.dataSize = input.length + output.length := by
  rw [CallNode.dataSize, hinput, houtput]

/-- A context only changes errors. -/
theorem inContext_eq_ok {α : Type} {context : String} {x : Except String α} {a : α} :
    inContext context x = .ok a ↔ x = .ok a := by
  cases x with
  | error err => exact iff_of_false nofun nofun
  | ok b => exact Iff.rfl

variable {hexutil : HexUtil} {limits : TraceLimits} {size : Nat} {next : TraceBuilder}

/-- A count grows up to its limit. -/
theorem grown_eq_ok {total : Nat} {limit : Int} {err : String} {grown : TraceBuilder} :
    (if (total : Int) > limit - size then .error err else .ok grown : Except String _)
      = .ok next ↔
      ((total + size : Nat) : Int) ≤ limit ∧ next = grown := by
  by_cases h : (total : Int) > limit - size
  · rw [if_pos h]
    exact iff_of_false nofun fun hle => by omega
  · rw [if_neg h]
    constructor
    · intro heq
      exact ⟨by omega, (Except.ok.inj heq).symm⟩
    · rintro ⟨-, rfl⟩
      rfl

variable {builder : TraceBuilder}

theorem addData_eq_ok : builder.addData limits size = .ok next ↔
      ((builder.dataBytes + size : Nat) : Int) ≤ limits.maxDataBytes ∧
        next = { builder with dataBytes := builder.dataBytes + size } := grown_eq_ok

theorem addText_eq_ok : builder.addText limits size = .ok next ↔
      ((builder.textBytes + size : Nat) : Int) ≤ limits.maxTextBytes ∧
        next = { builder with textBytes := builder.textBytes + size } := grown_eq_ok

/-- When the three quantities are accepted. -/
theorem validateQuantities_eq_ok {value gas gasUsed : String} :
    validateQuantities value gas gasUsed = .ok () ↔
      validateTraceQuantity value = .ok () ∧ validateTraceQuantity gas = .ok () ∧
        validateTraceQuantity gasUsed = .ok () := by
  simp only [validateQuantities, bind_eq_ok, inContext_eq_ok]
  constructor
  · rintro ⟨⟨⟩, hvalue, ⟨⟩, hgas, hgasUsed⟩
    exact ⟨hvalue, hgas, hgasUsed⟩
  · rintro ⟨hvalue, hgas, hgasUsed⟩
    exact ⟨(), hvalue, (), hgas, hgasUsed⟩

theorem normalizeCallTracerType_kind (kind : CallKind) :
    normalizeCallTracerType kind.type.text = .ok kind.type := by
  cases kind <;> decide +kernel

/-- A call reverted directly iff it has an error. -/
theorem CallNode.direct_eq_failed (node : CallNode) :
    decide (node.error ≠ "" ∨ node.revertReason ≠ "") = node.failed := by
  rw [CallNode.failed]
  refine decide_eq_decide.mpr (or_iff_left_of_imp fun hreason herror => ?_)
  exact hreason (node.reason_error herror)

section

variable (frame : CallFrame)

/-- Normalizing the context leaves the structural part of a frame alone. -/
theorem normalizeCallExecutionContext_place :
    (normalizeCallExecutionContext frame).place = frame.place := by
  rw [normalizeCallExecutionContext]
  split <;> rfl

theorem normalizeCallExecutionContext_type :
    (normalizeCallExecutionContext frame).type = frame.type :=
  congrArg Place.type (normalizeCallExecutionContext_place frame)

theorem normalizeCallExecutionContext_directReverted :
    (normalizeCallExecutionContext frame).directReverted = frame.directReverted := by
  rw [normalizeCallExecutionContext]
  split <;> rfl

end

variable {frame : CallFrame} {kind : CallKind}

/-- A normalized frame is valid when it has the addresses that its kind requires. -/
theorem validate_normalized (htype : frame.type = kind.type) :
    validateTraceFrameAddresses (normalizeCallExecutionContext frame) = .ok () ↔
      kind.Complete frame.fromAddress frame.toAddress frame.directReverted := by
  have hcreate : ¬ (frame.fromAddress = none ∨
        (frame.toAddress = none ∧ frame.directReverted = false)) ↔
      frame.fromAddress ≠ none ∧ (frame.toAddress = none → frame.directReverted = true) := by
    rw [not_or, not_and, Bool.not_eq_false]
  cases kind with
  | call | staticcall | selfdestruct =>
    simp only [normalizeCallExecutionContext, validateTraceFrameAddresses, htype, CallKind.type]
    exact failIf_eq_ok.trans not_or
  | delegatecall | callcode =>
    simp only [normalizeCallExecutionContext, validateTraceFrameAddresses, htype, CallKind.type]
    exact failIf_eq_ok.trans (not_congr or_self_iff)
  | create | create2 =>
    simp only [normalizeCallExecutionContext, validateTraceFrameAddresses, htype, CallKind.type]
    exact failIf_eq_ok.trans hcreate

/-- A builder that differs from another in its logs only. -/
structure SameFrames (builder next : TraceBuilder) : Prop where
  frames : next.frames = builder.frames
  dataBytes : next.dataBytes = builder.dataBytes
  textBytes : next.textBytes = builder.textBytes

/-- A log adds no frame. -/
theorem callLog_keeps {index : Nat} {wire : CallTracerLogWire} {log : TraceLog}
    (h : callLog hexutil limits index wire builder = .ok (log, next)) :
    SameFrames builder next := by
  unfold callLog at h
  cases haddress : optionalTraceAddress wire.address with
  | error err =>
    rw [haddress] at h
    cases h
  | ok address =>
    cases address with
    | none =>
      rw [haddress] at h
      cases h
    | some address =>
      rw [haddress] at h
      split_ifs at h with htopics
      obtain ⟨topics, -, h⟩ := bind_eq_ok.mp h
      cases hdata : optionalTraceData wire.data with
      | error err =>
        rw [hdata] at h
        cases h
      | ok data =>
        rw [hdata] at h
        dsimp only at h
        split_ifs at h with hbytes
        cases hindex : hexutil.decodeUint64 wire.index with
        | none =>
          rw [hindex] at h
          cases h
        | some logIndex =>
          cases hposition : hexutil.decodeUint64 wire.position with
          | none =>
            rw [hindex, hposition] at h
            cases h
          | some position =>
            rw [hindex, hposition] at h
            dsimp only at h
            split_ifs at h with hrange
            cases h
            exact ⟨rfl, rfl, rfl⟩

variable {wires : List CallTracerLogWire}

/-- Logs add no frame. -/
theorem callLogsFrom_keeps : ∀ {index : Nat} {builder next : TraceBuilder} {logs : List TraceLog},
      callLogsFrom hexutil limits index wires builder = .ok (logs, next) →
        SameFrames builder next := by
  induction wires with
  | nil =>
    intro index builder next logs h
    cases h
    exact ⟨rfl, rfl, rfl⟩
  | cons wire rest ih =>
    intro index builder next logs h
    obtain ⟨⟨log, middle⟩, hlog, h⟩ := bind_eq_ok.mp h
    obtain ⟨⟨logs, final⟩, hrest, h⟩ := bind_eq_ok.mp h
    cases h
    obtain ⟨hf, hd, ht⟩ := callLog_keeps hlog
    obtain ⟨hf', hd', ht'⟩ := ih hrest
    exact ⟨hf'.trans hf, hd'.trans hd, ht'.trans ht⟩

/-- The logs of a frame add no frame. -/
theorem callLogs_keeps {logs : List TraceLog}
    (h : callLogs hexutil limits wires builder = .ok (logs, next)) : SameFrames builder next := by
  rw [callLogs] at h
  split_ifs at h with hnil hcount
  · cases h
    exact ⟨rfl, rfl, rfl⟩
  · obtain ⟨hf, hd, ht⟩ := callLogsFrom_keeps h
    exact ⟨hf, hd, ht⟩

/-- What an accepted frame says about its node. -/
structure FrameAccepted (limits : TraceLimits) (node : CallNode) (path : List Uint32)
    (parent : Int) (ancestorReverted : Bool) (builder : TraceBuilder) (frame : CallFrame)
    (next : TraceBuilder) : Prop where
  decoded : ∃ source target input output, Decoded node source target input output
  place : frame.place = ⟨0, parent, path, node.kind.type, node.sender,
    ancestorReverted || node.failed⟩
  root : path = [] → node.kind = .call ∨ node.kind = .create
  frames : next.frames = builder.frames
  dataBytes : next.dataBytes = builder.dataBytes + node.dataSize
  textBytes : next.textBytes = builder.textBytes + node.textSize
  dataLimit : (next.dataBytes : Int) ≤ limits.maxDataBytes
  textLimit : (next.textBytes : Int) ≤ limits.maxTextBytes

variable {path : List Uint32}

/-- A root is a call or a creation. -/
theorem checkRootType_kind (h : checkRootType path kind.type = .ok ()) (hpath : path = []) :
    kind = .call ∨ kind = .create := by
  have hnot := failIf_eq_ok.mp h
  cases kind with
  | call => exact .inl rfl
  | create => exact .inr rfl
  | _ => exact absurd ⟨hpath, nofun, nofun⟩ hnot

variable {node : CallNode} {parent : Int} {ancestorReverted : Bool}

/-- What an accepted frame is. -/
theorem callFrame_accepted {calls : Nat}
    (h : callFrame hexutil limits node.wire calls path parent ancestorReverted builder
      = .ok (frame, next)) :
    FrameAccepted limits node path parent ancestorReverted builder frame next := by
  simp only [callFrame, bind_eq_ok, inContext_eq_ok, addData_eq_ok, addText_eq_ok] at h
  obtain ⟨type, htype, source, hsource, target, htarget, input, hinput, output, houtput, _,
    ⟨hdata, rfl⟩, _, ⟨htext, rfl⟩, ⟨⟩, hquantities, ⟨logs, final⟩, hlogs, ⟨⟩,
      hpositions, ⟨⟩,
    hvalid, ⟨⟩, hroot, hframe⟩ := h
  cases hframe
  obtain ⟨hf, hd, ht⟩ := callLogs_keeps hlogs
  have hkind : type = node.kind.type :=
    Except.ok.inj (htype.symm.trans (normalizeCallTracerType_kind node.kind))
  subst hkind
  obtain ⟨hvalue, hgas, hgasUsed⟩ := validateQuantities_eq_ok.mp hquantities
  have hdirect : decide (node.wire.error ≠ "" ∨ node.wire.revertReason ≠ "") = node.failed :=
    node.direct_eq_failed
  have hdata' : node.dataSize = input.length + output.length := node.dataSize_eq hinput houtput
  rw [hdirect] at hvalid hroot ⊢
  have hcomplete := (validate_normalized rfl).mp hvalid
  rw [normalizeCallExecutionContext_type] at hroot
  refine ⟨⟨source, target, input, output, hsource, htarget, hinput, houtput, hvalue, hgas,
    hgasUsed, hcomplete⟩, ?_, ?_, hf, ?_, ht, ?_, ?_⟩
  · rw [normalizeCallExecutionContext_place, node.sender_eq hsource]
    rfl
  · intro hpath
    exact checkRootType_kind hroot hpath
  · rw [hdata']
    exact hd
  · rw [hd]
    exact hdata
  · rw [ht]
    exact htext

/-! ## A walk over a tree -/

/-- What an accepted walk over some nodes has appended and checked. -/
structure WalkAccepted (limits : TraceLimits) (builder next : TraceBuilder)
    (nodes : List (Position Uint32 CallNode)) (appended : List Place) : Prop where
  places : next.frames.map CallFrame.place = builder.frames.map CallFrame.place ++ appended
  decoded : ∀ pos ∈ nodes, ∃ source target input output,
    Decoded pos.label source target input output
  depth : ∀ pos ∈ nodes, (pos.path.length : Int) ≤ limits.maxDepth
  root : ∀ pos ∈ nodes, pos.path = [] → pos.label.kind = .call ∨ pos.label.kind = .create
  frameLimit : (builder.frames.length : Int) ≤ limits.maxFrames →
    (next.frames.length : Int) ≤ limits.maxFrames
  dataBytes : next.dataBytes = builder.dataBytes + (nodes.map fun pos => pos.label.dataSize).sum
  textBytes : next.textBytes = builder.textBytes + (nodes.map fun pos => pos.label.textSize).sum
  dataLimit : (builder.dataBytes : Int) ≤ limits.maxDataBytes →
    (next.dataBytes : Int) ≤ limits.maxDataBytes
  textLimit : (builder.textBytes : Int) ≤ limits.maxTextBytes →
    (next.textBytes : Int) ≤ limits.maxTextBytes

/-- The empty walk. -/
theorem WalkAccepted.nil (limits : TraceLimits) (builder : TraceBuilder) :
    WalkAccepted limits builder builder [] [] := by
  refine ⟨(append_nil _).symm, ?_, ?_, ?_, id, rfl, rfl, id, id⟩
  · intro pos hpos
    cases hpos
  · intro pos hpos
    cases hpos
  · intro pos hpos
    cases hpos

variable {nodes : List (Position Uint32 CallNode)} {appended : List Place}

/-- Two walks, one after the other. -/
theorem WalkAccepted.append {middle : TraceBuilder}
    {later : List (Position Uint32 CallNode)} {appendedLater : List Place}
    (h : WalkAccepted limits builder middle nodes appended)
    (h' : WalkAccepted limits middle next later appendedLater) :
    WalkAccepted limits builder next (nodes ++ later) (appended ++ appendedLater) where
  places := by rw [h'.places, h.places, append_assoc]
  decoded := forall_mem_append.mpr ⟨h.decoded, h'.decoded⟩
  depth := forall_mem_append.mpr ⟨h.depth, h'.depth⟩
  root := forall_mem_append.mpr ⟨h.root, h'.root⟩
  frameLimit := fun hle => h'.frameLimit (h.frameLimit hle)
  dataBytes := by rw [h'.dataBytes, h.dataBytes, map_append, sum_append, add_assoc]
  textBytes := by rw [h'.textBytes, h.textBytes, map_append, sum_append, add_assoc]
  dataLimit := fun hle => h'.dataLimit (h.dataLimit hle)
  textLimit := fun hle => h'.textLimit (h.textLimit hle)

/-- An accepted frame is a walk of one frame. -/
theorem FrameAccepted.walk (arity : Nat)
    (h : FrameAccepted limits node path parent ancestorReverted builder frame next)
    (hdepth : (path.length : Int) ≤ limits.maxDepth)
    (hframes : (builder.frames.length : Int) < limits.maxFrames) :
    WalkAccepted limits builder
      { next with frames := next.frames ++ [{ frame with index := next.frames.length }] }
      [⟨path, node, arity⟩]
      [⟨builder.frames.length, parent, path, node.kind.type, node.sender,
        ancestorReverted || node.failed⟩] := by
  have hplace : ({ frame with index := next.frames.length } : CallFrame).place
      = ⟨builder.frames.length, parent, path, node.kind.type, node.sender,
        ancestorReverted || node.failed⟩ := by
    rw [← h.frames]
    exact congrArg (fun place : Place => { place with index := next.frames.length }) h.place
  refine ⟨?_, ?_, ?_, ?_, ?_, ?_, ?_, fun _ => h.dataLimit, fun _ => h.textLimit⟩
  · rw [map_append, map_singleton, hplace, h.frames]
  · intro pos hpos
    obtain rfl := mem_singleton.mp hpos
    exact h.decoded
  · intro pos hpos
    obtain rfl := mem_singleton.mp hpos
    exact hdepth
  · intro pos hpos
    obtain rfl := mem_singleton.mp hpos
    exact h.root
  · intro _
    rw [length_append, h.frames, length_singleton]
    exact hframes
  · rw [map_singleton, sum_singleton]
    exact h.dataBytes
  · rw [map_singleton, sum_singleton]
    exact h.textBytes

theorem WalkAccepted.length (h : WalkAccepted limits builder next nodes appended) :
    next.frames.length = builder.frames.length + appended.length := by
  have hlength := congrArg List.length h.places
  rwa [length_append, length_map, length_map] at hlength

mutual

/-- **The recursive normalizer** appends the places of the tree, in preorder. -/
theorem appendCallTracer_places (hexutil : HexUtil) (limits : TraceLimits) :
    ∀ (t : CallTree) (path : List Uint32)
    (parent : Int) (ancestorReverted : Bool) (builder next : TraceBuilder),
    appendCallTracer hexutil limits (encodeNested t) path parent ancestorReverted builder
      = .ok next →
      WalkAccepted limits builder next (positions uint32 t path)
        (places t path parent ancestorReverted builder.frames.length)
  | .node node children, path, parent, ancestorReverted, builder, next => by
      intro h
      rw [encodeNested, appendCallTracer] at h
      split_ifs at h with hdepth hframes
      obtain ⟨⟨frame, middle⟩, hframe, hcalls⟩ := bind_eq_ok.mp h
      have haccepted := callFrame_accepted (inContext_eq_ok.mp hframe)
      have hwalk := haccepted.walk children.length (not_lt.mp hdepth) (not_le.mp hframes)
      have hrest := appendCalls_places hexutil limits children path 0 _ _ _ next hcalls
      have hreverted : frame.reverted = (ancestorReverted || node.failed) :=
        congrArg Place.reverted haccepted.place
      have hsame : ∀ base, base = builder.frames.length + 1 →
          placesFrom children path 0 middle.frames.length frame.reverted base
            = placesFrom children path 0 builder.frames.length (ancestorReverted || node.failed)
              (builder.frames.length + 1) := by
        intro base hbase
        rw [hbase, hreverted, haccepted.frames]
      rw [positions, places, ← hsame _ hwalk.length]
      exact hwalk.append hrest

/-- The calls of a frame are appended at their places. -/
theorem appendCalls_places (hexutil : HexUtil) (limits : TraceLimits) :
    ∀ (ts : List CallTree) (path : List Uint32)
    (i : Nat) (parent : Int) (reverted : Bool) (builder next : TraceBuilder),
    appendCalls hexutil limits (encodeCalls ts) path i parent reverted builder = .ok next →
      WalkAccepted limits builder next (forestPositions uint32 ts path i)
        (placesFrom ts path i parent reverted builder.frames.length)
  | [], path, i, parent, reverted, builder, next => by
      intro h
      cases h
      exact WalkAccepted.nil limits builder
  | child :: rest, path, i, parent, reverted, builder, next => by
      intro h
      obtain ⟨middle, hchild, hrest⟩ := bind_eq_ok.mp h
      have hwalk :=
        appendCallTracer_places hexutil limits child (path ++ [uint32 i]) parent reverted
        builder middle hchild
      have hlater :=
        appendCalls_places hexutil limits rest path (i + 1) parent reverted middle next hrest
      rw [hwalk.length] at hlater
      rw [forestPositions, placesFrom]
      exact hwalk.append hlater

end

end Enrich
