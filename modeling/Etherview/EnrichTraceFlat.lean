import Etherview.EnrichTraceNested

/-! # Decoding the flat encoding

    `NormalizeTraceAPI` decodes the frames of a flat answer in the order they come in,
    before it knows anything of the tree.

    * `decodeFrames_decodes` — a pending frame stands for the node it was encoded from;
    * `decodeFrames_total` — nodes that the recursive normalizer decodes are decoded here
      too, from the same texts or fewer. -/

namespace Enrich

open Store MapUpdate Hex Transact RoseTree List

/-! ## One frame -/

/-- The frame that `traceAPIFrame` starts from. -/
def blankFrame (path : List Uint32) (error : String) (direct : Bool) : CallFrame :=
  { index := 0, parentIndex := 0, traceAddress := path, type := .other ""
    fromAddress := none, toAddress := none, codeAddress := none
    value := "", gas := "", gasUsed := "", input := [], output := []
    error := error, revertReason := "", directReverted := direct, reverted := direct
    logs := [] }

/-- The texts that a flat frame carries: a failed call has no result, and a
    self-destruction has neither gas nor data. -/
def CallNode.flatTo (node : CallNode) : String := match node.kind with
  | .create | .create2 => if node.failed then "" else node.toText
  | _ => node.toText

/-- The input that a flat trace has. -/
def CallNode.flatInput (node : CallNode) : String := match node.kind with
  | .selfdestruct => ""
  | _ => node.input

/-- The output that a flat trace has; a failed call has no result. -/
def CallNode.flatOutput (node : CallNode) : String := match node.kind with
  | .selfdestruct => ""
  | _ => if node.failed then "" else node.output

/-- The gas that a flat trace has. -/
def CallNode.flatGas (node : CallNode) : String := match node.kind with
  | .selfdestruct => ""
  | _ => node.gas

/-- The used gas that a flat trace has; a failed call has no result. -/
def CallNode.flatGasUsed (node : CallNode) : String := match node.kind with
  | .selfdestruct => ""
  | _ => if node.failed then "" else node.gasUsed

/-- The frame that an encoded node decodes to. -/
def CallNode.flatFrame (node : CallNode) (path : List Uint32) (source target : Option Address)
    (input output : List Byte) : CallFrame :=
  { blankFrame path node.error node.failed with
    type := node.kind.type, fromAddress := source, toAddress := target
    value := node.value, gas := node.flatGas, gasUsed := node.flatGasUsed
    input := input, output := output }

theorem callType_type (kind : CallKind) (h : kind.flatType = "call") :
    (if toUpper kind.methodText = "" then .call
      else .ofText (toUpper kind.methodText)) = kind.type := by
  revert h
  cases kind <;> decide +kernel

/-- The creation method of a flat trace is read back. -/
theorem creationMethod_type (kind : CallKind) (h : kind.flatType = "create") :
    (if toLower "create" = "create2" ∨ toLower kind.methodText = "create2" then .create2
      else .create) = kind.type := by
  revert h
  cases kind <;> decide +kernel

/-- A node whose flat texts decode. -/
def CallNode.FlatDecodes (node : CallNode) (source target : Option Address)
    (input output : List Byte) : Prop :=
  optionalTraceAddress node.fromText = .ok source ∧
    optionalTraceAddress node.flatTo = .ok target ∧
    optionalTraceData node.flatInput = .ok input ∧
    optionalTraceData node.flatOutput = .ok output

variable {action : TraceActionWire} {frame next : CallFrame} {result : TraceResultWire}

/-- When a call of a flat trace is accepted. -/
theorem callAction_eq_ok : callAction action result frame = .ok next ↔
      ∃ source target input output, (optionalTraceAddress action.fromText = .ok source ∧
          optionalTraceAddress action.toText = .ok target ∧
          optionalTraceData action.input = .ok input ∧
          optionalTraceData result.output = .ok output) ∧
        next = { frame with
          type := if toUpper action.callType = "" then .call else .ofText (toUpper action.callType)
          fromAddress := source, toAddress := target
          value := action.value, gas := action.gas, gasUsed := result.gasUsed
          input := input, output := output } := by
  simp only [callAction, bind_eq_ok, inContext_eq_ok, pure_eq_ok]
  constructor
  · rintro ⟨source, hs, target, ht, input, hi, output, ho, rfl⟩
    exact ⟨source, target, input, output, ⟨hs, ht, hi, ho⟩, rfl⟩
  · rintro ⟨source, target, input, output, ⟨hs, ht, hi, ho⟩, rfl⟩
    exact ⟨source, hs, target, ht, input, hi, output, ho, rfl⟩

/-- When a creation of a flat trace is accepted. -/
theorem createAction_eq_ok {type : String} : createAction type action result frame = .ok next ↔
      ∃ source target input output, (optionalTraceAddress action.fromText = .ok source ∧
          optionalTraceAddress result.address = .ok target ∧
          optionalTraceData action.init = .ok input ∧
          optionalTraceData result.code = .ok output) ∧
        next = { frame with
          type := if toLower type = "create2" ∨ toLower action.creationMethod = "create2" then
            .create2 else .create
          fromAddress := source, toAddress := target
          value := action.value, gas := action.gas, gasUsed := result.gasUsed
          input := input, output := output } := by
  simp only [createAction, bind_eq_ok, inContext_eq_ok, pure_eq_ok]
  constructor
  · rintro ⟨source, hs, target, ht, input, hi, output, ho, rfl⟩
    exact ⟨source, target, input, output, ⟨hs, ht, hi, ho⟩, rfl⟩
  · rintro ⟨source, target, input, output, ⟨hs, ht, hi, ho⟩, rfl⟩
    exact ⟨source, hs, target, ht, input, hi, output, ho, rfl⟩

/-- When a self-destruction of a flat trace is accepted. -/
theorem selfdestructAction_eq_ok : selfdestructAction action frame = .ok next ↔
      ∃ source target, (optionalTraceAddress action.address = .ok source ∧
          optionalTraceAddress action.refundAddress = .ok target) ∧
        next = { frame with
          type := .selfdestruct, fromAddress := source, toAddress := target
          value := action.balance } := by
  simp only [selfdestructAction, bind_eq_ok, inContext_eq_ok, pure_eq_ok]
  constructor
  · rintro ⟨source, hs, target, ht, rfl⟩
    exact ⟨source, target, ⟨hs, ht⟩, rfl⟩
  · rintro ⟨source, target, ⟨hs, ht⟩, rfl⟩
    exact ⟨source, hs, target, ht, rfl⟩

section

variable (action : TraceActionWire) (result : TraceResultWire) (frame : CallFrame)

theorem actionFrame_call :
    actionFrame "call" action result frame = callAction action result frame := by
  have hlower : toLower "call" = "call" := by decide +kernel
  simp only [actionFrame, hlower]
  exact if_pos trivial

theorem actionFrame_create :
    actionFrame "create" action result frame = createAction "create" action result frame := by
  have hlower : toLower "create" = "create" := by decide +kernel
  simp only [actionFrame, hlower]
  exact (if_neg (by decide)).trans (if_pos (.inl trivial))

theorem actionFrame_suicide :
    actionFrame "suicide" action result frame = selfdestructAction action frame := by
  have hlower : toLower "suicide" = "suicide" := by decide +kernel
  simp only [actionFrame, hlower]
  exact (if_neg (by decide)).trans ((if_neg (by decide)).trans (if_pos (.inl trivial)))

end

variable {path : List Uint32} {frame : CallFrame}

/-- The switch reads an encoded node by its flat texts. -/
theorem actionFrame_encoded {node : CallNode} :
    actionFrame node.kind.flatType node.action (node.result.getD .empty)
        (blankFrame path node.error node.failed) = .ok frame ↔
      ∃ source target input output, node.FlatDecodes source target input output ∧
        frame = node.flatFrame path source target input output := by
  simp only [CallNode.FlatDecodes, CallNode.flatFrame, CallNode.flatTo, CallNode.flatInput,
    CallNode.flatOutput, CallNode.flatGas, CallNode.flatGasUsed]
  cases hkind : node.kind with
  | call | staticcall | delegatecall | callcode =>
    show actionFrame "call" _ _ _ = _ ↔ _
    rw [actionFrame_call, callAction_eq_ok]
    cases hfailed : node.failed <;>
      simp only [CallNode.action, CallNode.result, hkind, hfailed, Bool.false_eq_true, if_true,
        if_false, callType_type .call rfl, callType_type .staticcall rfl,
        callType_type .delegatecall rfl, callType_type .callcode rfl] <;>
      exact Iff.rfl
  | create | create2 =>
    show actionFrame "create" _ _ _ = _ ↔ _
    rw [actionFrame_create, createAction_eq_ok]
    cases hfailed : node.failed <;>
      simp only [CallNode.action, CallNode.result, hkind, hfailed, Bool.false_eq_true, if_true,
        if_false, creationMethod_type .create rfl, creationMethod_type .create2 rfl] <;>
      exact Iff.rfl
  | selfdestruct =>
    show actionFrame "suicide" _ _ _ = _ ↔ _
    rw [actionFrame_suicide, selfdestructAction_eq_ok]
    simp only [CallNode.action, hkind]
    constructor
    · rintro ⟨source, target, ⟨hs, ht⟩, rfl⟩
      exact ⟨source, target, [], [], ⟨hs, ht, rfl, rfl⟩, rfl⟩
    · rintro ⟨source, target, input, output, ⟨hs, ht, ⟨⟩, ⟨⟩⟩, rfl⟩
      exact ⟨source, target, ⟨hs, ht⟩, rfl⟩

/-- What decoding an encoded frame checks, and what it gives. -/
structure FlatAccepted (limits : TraceLimits) (node : CallNode) (path : List Uint32)
    (builder : TraceBuilder) (source target : Option Address) (input output : List Byte)
    (frame : CallFrame) (next : TraceBuilder) : Prop where
  decodes : node.FlatDecodes source target input output
  textLimit : ((builder.textBytes + node.error.utf8ByteSize : Nat) : Int) ≤ limits.maxTextBytes
  value : validateTraceQuantity node.value = .ok ()
  gas : validateTraceQuantity node.flatGas = .ok ()
  gasUsed : validateTraceQuantity node.flatGasUsed = .ok ()
  dataLimit : ((builder.dataBytes + (input.length + output.length) : Nat) : Int)
    ≤ limits.maxDataBytes
  complete : node.kind.Complete source target node.failed
  frame : frame = normalizeCallExecutionContext (node.flatFrame path source target input output)
  next : next = { builder with
    textBytes := builder.textBytes + node.error.utf8ByteSize
    dataBytes := builder.dataBytes + (input.length + output.length) }

variable {limits : TraceLimits} {identity : TraceIdentity} {pos : Position Nat CallNode}
  {spelling : IdentityWire identity}

/-- When an encoded frame is accepted, and what it becomes. -/
theorem traceAPIFrame_eq_ok {builder next : TraceBuilder} :
    traceAPIFrame limits (encodeFrame spelling pos) path builder = .ok (frame, next) ↔
      ∃ source target input output,
        FlatAccepted limits pos.label path builder source target input output frame next := by
  have hresult : ((encodeFrame spelling pos).result.getD (.ok .empty))
      = .ok (pos.label.result.getD .empty) := by
    simp only [encodeFrame]
    cases pos.label.result with
    | none => rfl
    | some result => rfl
  simp only [traceAPIFrame, hresult, bind_eq_ok, inContext_eq_ok, addText_eq_ok, addData_eq_ok,
    pure_eq_ok]
  constructor
  · rintro ⟨_, ⟨⟩, _, ⟨⟩, _, ⟨htext, rfl⟩, blank, hblank, ⟨⟩, hquantities, _,
      ⟨hdata, rfl⟩, ⟨⟩,
      hvalid, hframe⟩
    obtain ⟨source, target, input, output, hdecodes, rfl⟩ := actionFrame_encoded.mp hblank
    obtain ⟨hvalue, hgas, hgasUsed⟩ := validateQuantities_eq_ok.mp hquantities
    cases hframe
    exact ⟨source, target, input, output, hdecodes, htext, hvalue, hgas, hgasUsed, hdata,
      (validate_normalized rfl).mp hvalid, rfl, rfl⟩
  · rintro ⟨source, target, input, output, h⟩
    refine ⟨_, rfl, _, rfl, _, ⟨h.textLimit, rfl⟩, _,
      actionFrame_encoded.mpr ⟨source, target, input, output, h.decodes, rfl⟩, (),
      validateQuantities_eq_ok.mpr ⟨h.value, h.gas, h.gasUsed⟩, _, ⟨h.dataLimit, rfl⟩, (),
      (validate_normalized rfl).mpr h.complete, ?_⟩
    rw [h.frame, h.next]
    rfl

variable {source target : Option Address} {input output : List Byte}

/-- A node that the recursive normalizer decodes is decoded from its flat texts too, which
    are the same or fewer. -/
theorem Decoded.flat {node : CallNode} (h : Decoded node source target input output) :
    ∃ target' input' output', node.FlatDecodes source target' input' output' ∧
      input'.length + output'.length ≤ node.dataSize ∧
      validateTraceQuantity node.flatGas = .ok () ∧
      validateTraceQuantity node.flatGasUsed = .ok () ∧
      node.kind.Complete source target' node.failed := by
  have hcomplete := h.complete
  have hsize := node.dataSize_eq h.inputText h.outputText
  simp only [CallNode.FlatDecodes, CallNode.flatTo, CallNode.flatInput, CallNode.flatOutput,
    CallNode.flatGas, CallNode.flatGasUsed]
  cases hkind : node.kind with
  | call | staticcall | delegatecall | callcode =>
    rw [hkind] at hcomplete
    cases hfailed : node.failed with
    | false =>
      rw [hfailed] at hcomplete
      exact ⟨target, input, output,
        ⟨h.fromText, h.toText, h.inputText, h.outputText⟩, hsize.ge,
        h.gas, h.gasUsed, hcomplete⟩
    | true =>
      rw [hfailed] at hcomplete
      exact ⟨target, input, [], ⟨h.fromText, h.toText, h.inputText, rfl⟩,
        hsize ▸ Nat.le_add_right _ _, h.gas, rfl, hcomplete⟩
  | create | create2 =>
    rw [hkind] at hcomplete
    cases hfailed : node.failed with
    | false =>
      rw [hfailed] at hcomplete
      exact ⟨target, input, output,
        ⟨h.fromText, h.toText, h.inputText, h.outputText⟩, hsize.ge,
        h.gas, h.gasUsed, hcomplete⟩
    | true =>
      exact ⟨none, input, [], ⟨h.fromText, rfl, h.inputText, rfl⟩,
        hsize ▸ Nat.le_add_right _ _, h.gas, rfl, hcomplete.1, fun _ => rfl⟩
  | selfdestruct =>
    rw [hkind] at hcomplete
    exact ⟨target, [], [], ⟨h.fromText, h.toText, rfl, rfl⟩, Nat.zero_le _,
      rfl, rfl, hcomplete⟩

/-! ## All frames, in the order they come in -/

/-- The pending frame of a node. -/
structure Decodes (pos : Position Nat CallNode) (item : PendingTraceFrame) : Prop where
  subtraces : item.subtraces = pos.arity
  narrow : ∀ part ∈ pos.path, part < 4294967296
  traceAddress : item.frame.traceAddress = pos.path.map uint32
  type : item.frame.type = pos.label.kind.type
  fromAddress : item.frame.fromAddress = pos.label.sender
  directReverted : item.frame.directReverted = pos.label.failed
  reverted : item.frame.reverted = pos.label.failed

/-- A path is accepted iff its parts have 32 bits. -/
theorem tracePath_eq_ok {parts : List Nat} : tracePath parts = .ok path ↔
      (∀ part ∈ parts, part < 4294967296) ∧ path = parts.map uint32 := by
  induction parts generalizing path with
  | nil =>
    rw [tracePath]
    constructor
    · intro h
      cases h
      exact ⟨fun _ hpart => (nomatch hpart), rfl⟩
    · rintro ⟨-, rfl⟩
      rfl
  | cons part rest ih =>
    rw [tracePath, forall_mem_cons]
    by_cases hlarge : part > 4294967295
    · rw [if_pos hlarge]
      exact iff_of_false nofun fun h => absurd h.1.1 (by omega)
    · rw [if_neg hlarge]
      simp only [bind_eq_ok, ih, pure_eq_ok]
      constructor
      · rintro ⟨_, ⟨hrest, rfl⟩, rfl⟩
        exact ⟨⟨by omega, hrest⟩, rfl⟩
      · rintro ⟨⟨-, hrest⟩, rfl⟩
        exact ⟨_, ⟨hrest, rfl⟩, rfl⟩

/-- An accepted frame decodes its position. -/
theorem FlatAccepted.decodes_item {builder next : TraceBuilder}
    (h : FlatAccepted limits pos.label (pos.path.map uint32) builder source target input output
      frame next) (hnarrow : ∀ part ∈ pos.path, part < 4294967296) :
    Decodes pos ⟨pos.arity, frame⟩ := by
  have hplace : frame.place
      = (pos.label.flatFrame (pos.path.map uint32) source target input output).place :=
    (congrArg CallFrame.place h.frame).trans (normalizeCallExecutionContext_place _)
  have hdirect : frame.directReverted = pos.label.failed :=
    (congrArg CallFrame.directReverted h.frame).trans
      (normalizeCallExecutionContext_directReverted _)
  exact ⟨rfl, hnarrow, congrArg Place.traceAddress hplace, congrArg Place.type hplace,
    (congrArg Place.fromAddress hplace).trans (pos.label.sender_eq h.decodes.1).symm, hdirect,
    congrArg Place.reverted hplace⟩

/-- **Decoding is sound**: accepted frames stand for their nodes. -/
theorem decodeFrames_decodes {order : List (Position Nat CallNode)} :
    ∀ {index : Nat} {builder : TraceBuilder} {pending : List PendingTraceFrame},
      decodeFrames limits identity index (order.map (encodeFrame spelling)) builder
        = .ok pending →
        Forall₂ Decodes order pending := by
  induction order with
  | nil =>
    intro index builder pending h
    cases h
    exact .nil
  | cons pos rest ih =>
    intro index builder pending h
    obtain ⟨⟨item, middle⟩, hitem, h⟩ := bind_eq_ok.mp h
    obtain ⟨items, hitems, h⟩ := bind_eq_ok.mp h
    cases h
    refine .cons ?_ (ih hitems)
    rw [decodeFrame] at hitem
    obtain ⟨⟨⟩, -, hitem⟩ := bind_eq_ok.mp hitem
    split_ifs at hitem with hsubtraces hdepth
    obtain ⟨path, hpath, hitem⟩ := bind_eq_ok.mp hitem
    obtain ⟨⟨frame, final⟩, hframe, hitem⟩ := bind_eq_ok.mp hitem
    cases hitem
    obtain ⟨hnarrow, rfl⟩ := tracePath_eq_ok.mp hpath
    obtain ⟨source, target, input, output, haccepted⟩ :=
      traceAPIFrame_eq_ok.mp (inContext_eq_ok.mp hframe)
    exact haccepted.decodes_item hnarrow

theorem expect_eq_ok {α : Type} [DecidableEq α] {found : Except String α} {expected : α}
    {err : String} (h : found = .ok expected) : expect found expected err = .ok () := by
  rw [h]
  exact failIf_eq_ok.mpr (not_not.mpr rfl)

section

variable (spelling : IdentityWire identity)

/-- Encoded frames are of their transaction. -/
theorem validateTraceAPIIdentity_encoded (pos : Position Nat CallNode) :
    validateTraceAPIIdentity (encodeFrame spelling pos) identity = .ok () := by
  simp only [validateTraceAPIIdentity, bind_eq_ok]
  exact ⟨(), expect_eq_ok spelling.transactionHash_ok, (), expect_eq_ok spelling.blockHash_ok, (),
    expect_eq_ok spelling.blockNumber_ok, expect_eq_ok spelling.transactionPosition_ok⟩

/-- What the flat normalizer needs of a node. -/
structure FlatNode (limits : TraceLimits) (pos : Position Nat CallNode) : Prop where
  decoded : ∃ source target input output, Decoded pos.label source target input output
  depth : (pos.path.length : Int) ≤ limits.maxDepth
  narrow : ∀ part ∈ pos.path, part < 4294967296
  arity : (pos.arity : Int) ≤ limits.maxFrames

/-- A node that fits is decoded, at a cost of no more than its sizes. -/
theorem decodeFrame_total (index : Nat) (builder : TraceBuilder) (hnode : FlatNode limits pos)
    (hdata : ((builder.dataBytes + pos.label.dataSize : Nat) : Int) ≤ limits.maxDataBytes)
    (htext : ((builder.textBytes + pos.label.textSize : Nat) : Int) ≤ limits.maxTextBytes) :
    ∃ item next,
      decodeFrame limits identity index (encodeFrame spelling pos) builder = .ok (item, next) ∧
      next.dataBytes ≤ builder.dataBytes + pos.label.dataSize ∧
      next.textBytes ≤ builder.textBytes + pos.label.textSize := by
  obtain ⟨source, target, input, output, hdecoded⟩ := hnode.decoded
  obtain ⟨target', input', output', hflat, hsize, hgas, hgasUsed, hcomplete⟩ := hdecoded.flat
  have hreason : pos.label.error.utf8ByteSize ≤ pos.label.textSize := Nat.le_add_right _ _
  obtain ⟨frame, next, hframe, hnextData, hnextText⟩ : ∃ frame next,
      traceAPIFrame limits (encodeFrame spelling pos) (pos.path.map uint32) builder
        = .ok (frame, next) ∧
      next.dataBytes = builder.dataBytes + (input'.length + output'.length) ∧
      next.textBytes = builder.textBytes + pos.label.error.utf8ByteSize :=
    ⟨_, _, traceAPIFrame_eq_ok.mpr ⟨source, target', input', output', hflat, by omega,
      hdecoded.value, hgas, hgasUsed, by omega, hcomplete, rfl, rfl⟩, rfl, rfl⟩
  refine ⟨⟨pos.arity, frame⟩, next, ?_, by omega, by omega⟩
  rw [decodeFrame, validateTraceAPIIdentity_encoded spelling pos]
  refine bind_eq_ok.mpr ⟨(), rfl, ?_⟩
  have hsubtraces : ¬ ((pos.arity : Int) < 0 ∨ (pos.arity : Int) > limits.maxFrames) := by
    have := hnode.arity
    omega
  refine (if_neg hsubtraces).trans ((if_neg (not_lt.mpr hnode.depth)).trans ?_)
  refine bind_eq_ok.mpr ⟨_, tracePath_eq_ok.mpr ⟨hnode.narrow, rfl⟩, ?_⟩
  exact bind_eq_ok.mpr ⟨_, inContext_eq_ok.mpr hframe, rfl⟩

/-- **Decoding is total** on nodes whose sizes add up to no more than the limits. -/
theorem decodeFrames_total {order : List (Position Nat CallNode)} :
    ∀ {index : Nat} {builder : TraceBuilder}, (∀ pos ∈ order, FlatNode limits pos) →
      ((builder.dataBytes + (order.map fun pos => pos.label.dataSize).sum : Nat) : Int)
        ≤ limits.maxDataBytes →
      ((builder.textBytes + (order.map fun pos => pos.label.textSize).sum : Nat) : Int)
        ≤ limits.maxTextBytes →
      ∃ pending, decodeFrames limits identity index (order.map (encodeFrame spelling)) builder
          = .ok pending := by
  induction order with
  | nil =>
    intro index builder _ _ _
    exact ⟨[], rfl⟩
  | cons pos rest ih =>
    intro index builder hnodes hdata htext
    obtain ⟨hnode, hrest⟩ := forall_mem_cons.mp hnodes
    rw [map_cons, sum_cons] at hdata htext
    obtain ⟨item, next, hitem, hdata', htext'⟩ := decodeFrame_total spelling index builder
      hnode (by omega) (by omega)
    obtain ⟨items, hitems⟩ := @ih (index + 1) next hrest (by omega) (by omega)
    refine ⟨item :: items, ?_⟩
    rw [map_cons, decodeFrames, hitem]
    exact bind_eq_ok.mpr ⟨_, rfl, bind_eq_ok.mpr ⟨items, hitems, rfl⟩⟩

end

end Enrich
