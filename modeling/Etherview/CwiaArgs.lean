import Etherview.GoMap
import Etherview.Hex
import Etherview.Slices

/-! # Decoding immutable arguments

    `internal/cwiaargs/schema.go`: a schema says where the arguments of a clone lie in
    the bytes behind its code.  `ParseAnalysis` reads one that was stored, and
    `validateSchemaShape` checks it; `Decode` then splits the bytes of a clone.

    A field has a fixed width, or it is the last one and takes the remaining bytes
    or as many as an earlier field says.  What the validation accepts is `Laid`, and
    along it the loop of `Decode` finds every size it looks up (`decodeFields_run`).

    The hexadecimal texts of bytes and addresses are those of go-ethereum: they are
    parameters (`HexTexts`), of which `HexTexts.Lawful` is assumed. -/

namespace CwiaArgs

open Hex List Slices

/-! ## Limits and types -/

/-- `MaxFields`. -/
def maxFields : Nat := 64

/-- `MaxGetters`. -/
def maxGetters : Nat := 16

/-- `MaxArguments`, `0x5fd3`. -/
def maxArguments : Nat := 24531

/-- The widths in bytes of the unsigned types. -/
def uintWidths : List Nat := (List.range 32).map (· + 1)

/-- The unsigned type of a width in bytes. -/
def uintType (width : Nat) : String := "uint" ++ toString (8 * width)

/-- `uintBits` in bytes: the width of an unsigned type. -/
def uintTypeWidth (type : String) : Option Nat :=
  uintWidths.find? fun width => uintType width = type

/-- The types a field can have. -/
def validFieldType (type : String) : Bool :=
  type ∈ ["address", "bytes32", "bytes", "uint256[]", "bytes32[]"]
    ∨ (uintTypeWidth type).isSome

/-- The widths a field of a type can have. -/
def validFixedTypeWidth (type : String) (width : Nat) : Bool :=
  match type with
  | "address" => width = 20
  | "bytes32" => width = 32
  | "bytes" => true
  | "uint256[]" => width % 32 = 0
  | "bytes32[]" => width % 32 = 0
  | type => uintTypeWidth type = some width

/-- A character of `fieldNamePattern`; a digit does not come first. -/
def nameChar (first : Bool) (c : Char) : Bool :=
  c = '_' ∨ ('a' ≤ c ∧ c ≤ 'z') ∨ ('A' ≤ c ∧ c ≤ 'Z')
    ∨ (first = false ∧ '0' ≤ c ∧ c ≤ '9')

/-- The check of the name of a field: its length and `fieldNamePattern`. -/
def validateFieldName (name : String) : Bool :=
  decide (name.utf8ByteSize ≤ 64) &&
    match name.toList with
    | [] => false
    | c :: rest => nameChar true c && rest.all (nameChar false)

/-! ## Analyses as they are stored -/

/-- `Size`, as it is read: nothing about it is known. -/
structure Size where
  kind : String
  bytes : Option Int
  field : String
  multiplier : Int
deriving DecidableEq, Repr

/-- `Field`: an argument, with where it lies and how long it is. -/
structure Field where
  name : String
  type : String
  offset : Int
  role : String
  getters : List String
  size : Size
deriving DecidableEq, Repr

/-- `Schema`. -/
structure Schema where
  version : Int
  source : String
  encoding : String
  helperSHA256 : String
  sha256 : String
  fields : List Field
deriving DecidableEq, Repr

/-- `Analysis`. -/
structure Analysis where
  analysisVersion : Int
  status : String
  reason : String
  schema : Option Schema
deriving DecidableEq, Repr

/-! ## Validation -/

/-- `validateSize`: the width, and whether it is fixed. -/
def validateSize (field : Field) (knownFields : List Field) (last : Bool) :
    Except String (Int × Bool) :=
  let size := field.size
  match size.kind with
  | "fixed" =>
    match size.bytes with
    | none => .error "fixed CWIA AST schema size is invalid"
    | some bytes =>
      if bytes < 0 ∨ bytes > maxArguments ∨ size.field ≠ "" ∨ size.multiplier ≠ 0 then
        .error "fixed CWIA AST schema size is invalid"
      else if validFixedTypeWidth field.type bytes.toNat = false then
        .error "CWIA AST schema type and size disagree"
      else .ok (bytes, true)
  | "field" =>
    if size.bytes ≠ none ∨ size.field = ""
        ∨ (size.multiplier ≠ 1 ∧ size.multiplier ≠ 32) then
      .error "field-sized CWIA AST schema size is invalid"
    else match knownFields.find? fun known => known.name = size.field with
    | none => .error "CWIA AST schema length dependency is invalid"
    | some lengthField =>
      if lengthField.role ≠ "length" ∨ last = false ∨
          (field.type ≠ "bytes" ∧ field.type ≠ "uint256[]"
            ∧ field.type ≠ "bytes32[]") then
        .error "CWIA AST schema length dependency is invalid"
      else if (field.type = "bytes" ∧ size.multiplier ≠ 1) ∨
          ((field.type = "uint256[]" ∨ field.type = "bytes32[]") ∧ size.multiplier ≠ 32) then
        .error "CWIA AST schema length multiplier is invalid"
      else .ok (0, false)
  | "remaining" =>
    if size.bytes ≠ none ∨ size.field ≠ "" ∨ size.multiplier ≠ 0 ∨ last = false ∨
        field.type ≠ "bytes" then
      .error "remaining CWIA AST schema size is invalid"
    else .ok (0, false)
  | _ => .error "CWIA AST schema size kind is invalid"

/-- The loop of `validateSchemaShape` over the fields. -/
def validateFields : List Field → Int → List Field → Except String Unit
  | _, _, [] => .ok ()
  | knownFields, cursor, field :: rest =>
    if validateFieldName field.name = false then
      .error "CWIA AST schema field name is invalid"
    else if knownFields.any (fun known => known.name = field.name) then
      .error "CWIA AST schema field name is duplicated"
    else if field.offset ≠ cursor ∨ field.offset < 0 ∨ field.offset > maxArguments ∨
        (field.role ≠ "value" ∧ field.role ≠ "length") ∨
        validFieldType field.type = false ∨
        field.getters.length > maxGetters then
      .error "CWIA AST schema field is invalid"
    else if ¬ field.getters.Pairwise (· ≤ ·) then
      .error "CWIA AST schema getters are not sorted"
    else if ¬ (field.getters.Nodup ∧ ∀ getter ∈ field.getters, getter ≠ ""
        ∧ getter.utf8ByteSize ≤ 256) then
      .error "CWIA AST schema getter is invalid"
    else if field.role = "length" ∧ uintTypeWidth field.type = none then
      .error "CWIA AST schema length field is not unsigned"
    else match validateSize field knownFields rest.isEmpty with
    | .error message => .error message
    | .ok (minimum, true) =>
      if cursor + minimum > maxArguments then
        .error "CWIA AST schema exceeds the immutable argument limit"
      else validateFields (knownFields ++ [field]) (cursor + minimum) rest
    -- a field without a fixed size has to be the last one
    | .ok (_, false) =>
      if rest.isEmpty then .ok () else .error "dynamic CWIA AST schema field must be last"

/-- `fixedHash`: thirty-two bytes in lower-case digits. -/
def fixedHash (value : String) : Bool := match Hex.parse value with
  | some bytes => bytes.length = 32 ∧ Hex.text bytes = value
  | none => false

section Digest

-- `schemaDigest` has no value where the encoded schema is too long
variable (schemaDigest : Schema → Option String)

/-- The checks of a schema, with its digest where it is required. -/
def validateSchemaShape (schema : Schema) (requireDigest : Bool) : Except String Unit :=
  if schema.version ≠ 2 ∨ schema.source ≠ "solidity_ast" ∨
      schema.encoding ≠ "solady-cwia-offsets" ∨
      schema.helperSHA256
        ≠ "0xbc97b0d077a3c5d5603808caeeb3fe572dcb2448c5536b66316d1b6b129cfca3" ∨
      schema.fields.length = 0 ∨ schema.fields.length > maxFields then
    .error "CWIA AST schema identity is invalid"
  else match validateFields [] 0 schema.fields with
  | .error message => .error message
  | .ok () =>
    if requireDigest then
      if fixedHash schema.sha256 = false then .error "CWIA AST schema digest is invalid"
      else if schemaDigest schema ≠ some schema.sha256 then
        .error "CWIA AST schema digest does not match"
      else .ok ()
    else if schema.sha256 ≠ "" then .error "unfinished CWIA AST schema carries a digest"
    else .ok ()

/-- The reasons of an analysis that failed. -/
def validAnalysisFailure (reason : String) : Bool :=
  reason ∈ ["malformed_analysis", "unsupported_access", "ambiguous_layout", "incomplete_layout",
    "schema_conflict", "limit_exceeded"]

/-- The checks of an analysis. -/
def validateAnalysis (analysis : Analysis) : Except String Unit :=
  if analysis.analysisVersion ≠ 1 then .error "CWIA AST analysis version is invalid"
  else match analysis.status with
  | "derived" =>
    match analysis.schema with
    | none => .error "derived CWIA AST analysis is malformed"
    | some schema =>
      if analysis.reason ≠ "" then .error "derived CWIA AST analysis is malformed"
      else validateSchemaShape schemaDigest schema true
  | "unavailable" =>
    if analysis.reason ≠ "ast_unavailable" ∨ analysis.schema ≠ none then
      .error "unavailable CWIA AST analysis is malformed"
    else .ok ()
  | "invalid" =>
    if validAnalysisFailure analysis.reason = false ∨ analysis.schema ≠ none then
      .error "invalid CWIA AST analysis is malformed"
    else .ok ()
  | _ => .error "CWIA AST analysis status is invalid"

/-- `ParseAnalysis`, behind the reading of the text. -/
def parseAnalysis (read : List Byte → Except String Analysis) (raw : List Byte) :
    Except String Analysis :=
  if raw.length = 0 ∨ raw.length > 8192 then .error "CWIA AST analysis is outside its size limit"
  else match read raw with
  | .error message => .error message
  | .ok analysis =>
    match validateAnalysis schemaDigest analysis with
    | .error message => .error message
    | .ok () => .ok analysis

/-- The schema of some fields, checked and with its digest. -/
def finalizeSchema (fields : List Field) : Except String Schema :=
  let schema : Schema := ⟨2, "solidity_ast", "solady-cwia-offsets",
    "0xbc97b0d077a3c5d5603808caeeb3fe572dcb2448c5536b66316d1b6b129cfca3", "", fields⟩
  match validateSchemaShape schemaDigest schema false with
  | .error message => .error message
  | .ok () =>
    match schemaDigest schema with
    | none => .error "CWIA AST schema cannot be normalized"
    | some digest => .ok { schema with sha256 := digest }

/-- The analysis of a schema. -/
def derivedAnalysis (schema : Schema) : Except String Analysis :=
  match validateSchemaShape schemaDigest schema true with
  | .error message => .error message
  | .ok () => .ok ⟨1, "derived", "", some schema⟩

end Digest

/-! ## Decoding -/

/-- What would stop the program. -/
inductive Crash where
  | nilSize
  | divideByZero
  | sliceBounds
deriving DecidableEq, Repr

/-- The value of an argument as it is shown. -/
inductive Shown where
  | text (s : String)
  | texts (items : List String)
deriving DecidableEq, Repr

/-- A decoded argument. -/
structure Value where
  name : String
  type : String
  offset : Int
  length : Int
  value : Shown
deriving DecidableEq, Repr

/-- The answer for the arguments of a clone. -/
structure Decoding where
  status : String
  reason : String
  schema : Option Schema
  schemaResolution : String
  arguments : List Value
deriving DecidableEq, Repr

/-- The hexadecimal texts of go-ethereum: `hexutil.Encode`, `hexutil.Decode` and
    `Hex` of `common.BytesToAddress`. -/
structure HexTexts where
  encode : List Byte → String
  decode : String → Option (List Byte)
  address : List Byte → String

/-- What is assumed of the texts: the text of some bytes is decoded to these bytes,
    and the text of an address determines its twenty bytes. -/
structure HexTexts.Lawful (hex : HexTexts) : Prop where
  decode_encode : ∀ bytes, hex.decode (hex.encode bytes) = some bytes
  address_injective : ∀ a b : List Byte, a.length = 20 → b.length = 20 →
    hex.address a = hex.address b → a = b

/-- `math.MaxInt`. -/
def maxInt : Int := 2 ^ 63 - 1

/-- The bytes of an argument: fixed, to the end, or told by an earlier one. -/
def resolveFieldLength (field : Field) (raw : List Byte) (numeric : GoMap String Nat) :
    Except Crash (Option Int) :=
  match field.size.kind with
  | "fixed" =>
    match field.size.bytes with
    | none => .error .nilSize
    | some bytes => .ok (some bytes)
  | "remaining" =>
    .ok (if (raw.length : Int) ≥ field.offset then some (raw.length - field.offset) else none)
  | "field" =>
    match numeric.get? field.size.field with
    | none => .ok none
    | some count =>
      -- `value.IsInt64()`
      if (count : Int) > maxInt then .ok none
      else if count > maxArguments then .ok none
      else if field.size.multiplier = 0 then .error .divideByZero
      else if (count : Int) > maxInt.tdiv field.size.multiplier then .ok none
      else .ok (some (count * field.size.multiplier))
  | _ => .ok none

/-- The words of a byte string. -/
def words (encoded : List Byte) : List (List Byte) :=
  (List.range (encoded.length / 32)).map fun index => (encoded.drop (32 * index)).take 32

section Decode

variable (hex : HexTexts)

/-- `decodeValue`: the value, and the integer it is. -/
def decodeValue (valueType : String) (encoded : List Byte) : Option (Shown × Option Nat) :=
  match valueType with
  | "address" =>
    if encoded.length ≠ 20 then none else some (.text (hex.address encoded), none)
  | "bytes32" => if encoded.length ≠ 32 then none else some (.text (hex.encode encoded), none)
  | "bytes" => some (.text (hex.encode encoded), none)
  | "uint256[]" =>
    if encoded.length % 32 ≠ 0 then none
    else some (.texts ((words encoded).map fun word => toString (bigEndian word)), none)
  | "bytes32[]" =>
    if encoded.length % 32 ≠ 0 then none
    else some (.texts ((words encoded).map hex.encode), none)
  | valueType =>
    if uintTypeWidth valueType ≠ some encoded.length then none
    else some (.text (toString (bigEndian encoded)), some (bigEndian encoded))

/-- The loop of `Decode` over the fields: the reason to stop, or the values and the end
    of the last one. -/
def decodeFields (raw : List Byte) :
    List Field → Int → GoMap String Nat → List Value →
      Except Crash (Except String (List Value × Int))
  | [], cursor, _, values => .ok (.ok (values, cursor))
  | field :: rest, cursor, numeric, values =>
    if field.offset ≠ cursor then .ok (.error "length_mismatch")
    else match resolveFieldLength field raw numeric with
    | .error crash => .error crash
    | .ok none => .ok (.error "length_mismatch")
    | .ok (some length) =>
      if length < 0 ∨ length > maxArguments - field.offset then .ok (.error "length_mismatch")
      else if field.offset + length > raw.length then .ok (.error "length_mismatch")
      else match slice raw field.offset (field.offset + length) with
      | none => .error .sliceBounds
      | some encoded =>
        match decodeValue hex field.type encoded with
        | none => .ok (.error "noncanonical_value")
        | some (value, integer) =>
          decodeFields raw rest (field.offset + length)
            (integer.elim numeric fun n => numeric.insert field.name n)
            (values ++ [⟨field.name, field.type, field.offset, length, value⟩])

/-- Decodes the arguments of a clone by an analysis. -/
def decode (rawHex : String) (analysis : Analysis) (resolution : String) : Except Crash Decoding :=
  match analysis.status with
  | "unavailable" => .ok ⟨"schema_unavailable", "ast_unavailable", none, "", []⟩
  | "invalid" => .ok ⟨"schema_invalid", analysis.reason, none, "", []⟩
  | "derived" =>
    match analysis.schema with
    | none => .ok ⟨"schema_invalid", "malformed_analysis", none, "", []⟩
    | some schema =>
      if resolution ≠ "exact_address" ∧ resolution ≠ "code_hash" then
        .ok ⟨"schema_invalid", "malformed_analysis", none, "", []⟩
      else match hex.decode rawHex with
      | none => .ok ⟨"data_invalid", "length_mismatch", some schema, resolution, []⟩
      | some raw =>
        if raw.length > maxArguments then
          .ok ⟨"data_invalid", "length_mismatch", some schema, resolution, []⟩
        else match decodeFields hex raw schema.fields 0 GoMap.empty [] with
        | .error crash => .error crash
        | .ok (.error reason) => .ok ⟨"data_invalid", reason, some schema, resolution, []⟩
        | .ok (.ok (values, cursor)) =>
          if cursor ≠ raw.length then
            .ok ⟨"data_invalid", "length_mismatch", some schema, resolution, []⟩
          else .ok ⟨"decoded", "", some schema, resolution, values⟩
  | _ => .ok ⟨"schema_invalid", "malformed_analysis", none, "", []⟩

end Decode

/-! ## Accepted schemas -/

/-- The bytes at the place of a field of fixed width. -/
def fieldBytes (raw : List Byte) (field : Field) : List Byte :=
  (raw.drop field.offset.toNat).take (field.size.bytes.getD 0).toNat

/-- The number at the place of the field of a name. -/
def numberAt (raw : List Byte) (fields : List Field) (name : String) : Nat :=
  (fields.find? fun field => field.name = name).elim 0 fun field => bigEndian (fieldBytes raw field)

/-- The width a field should have: its own, what another field says, or what remains. -/
def widthOf (raw : List Byte) (fields : List Field) (field : Field) : Nat :=
  if field.size.kind = "fixed" then (field.size.bytes.getD 0).toNat
  else if field.size.kind = "field" then
    numberAt raw fields field.size.field * field.size.multiplier.toNat
  else raw.length - field.offset.toNat

/-- The bytes of all fields. -/
def totalWidth (raw : List Byte) (fields : List Field) : List Field → Nat
  | [] => 0
  | field :: rest => widthOf raw fields field + totalWidth raw fields rest

theorem of_ite_ne {α : Type} {c : Prop} [Decidable c] {x y z : α} (h : (if c then x else y) = z)
    (hne : x ≠ z) : ¬ c ∧ y = z := by
  by_cases hc : c
  · rw [if_pos hc] at h
    exact absurd h hne
  · rw [if_neg hc] at h
    exact ⟨hc, h⟩

theorem error_ne_ok {ε α : Type} {e : ε} {a : α} :
    (Except.error e : Except ε α) ≠ .ok a := by
  intro h
  cases h

/-- The type and the multiplier of a field whose length another one says. -/
def SizedType (field : Field) : Prop := (field.type = "bytes" ∧ field.size.multiplier = 1) ∨
    ((field.type = "uint256[]" ∨ field.type = "bytes32[]") ∧ field.size.multiplier = 32)

/-- Fields behind those known, from a place on: those of fixed width first. -/
inductive Laid : List Field → Nat → List Field → Prop
  | nil (known : List Field) (cursor : Nat) : Laid known cursor []
  | fixed {known : List Field} {cursor : Nat} {field : Field} {rest : List Field} (width : Nat)
      (hoffset : field.offset = cursor) (hkind : field.size.kind = "fixed")
      (hbytes : field.size.bytes = some (width : Int))
      (htype : validFixedTypeWidth field.type width = true)
      (hrole : field.role = "length" → uintTypeWidth field.type ≠ none)
      (hfresh : ∀ k ∈ known, k.name ≠ field.name)
      (hrest : Laid (known ++ [field]) (cursor + width) rest) : Laid known cursor (field :: rest)
  | sized {known : List Field} {cursor : Nat} {field length : Field}
      (hoffset : field.offset = cursor) (hkind : field.size.kind = "field")
      (hlength : known.find? (fun k => k.name = field.size.field) = some length)
      (hrole : length.role = "length") (htype : SizedType field) : Laid known cursor [field]
  | remaining {known : List Field} {cursor : Nat} {field : Field}
      (hoffset : field.offset = cursor) (hkind : field.size.kind = "remaining")
      (htype : field.type = "bytes") : Laid known cursor [field]

variable {known : List Field}

/-- A fixed size that is accepted is the width of the type. -/
theorem validateSize_fixed {field : Field} {last : Bool} {minimum : Int}
    (h : validateSize field known last = .ok (minimum, true)) :
    field.size.kind = "fixed" ∧ ∃ width : Nat, minimum = width ∧
      field.size.bytes = some (width : Int) ∧ validFixedTypeWidth field.type width = true := by
  simp only [validateSize] at h
  split at h
  · case h_1 hkind =>
    cases hbytes : field.size.bytes with
    | none =>
      rw [hbytes] at h
      cases h
    | some bytes =>
      rw [hbytes] at h
      obtain ⟨hrange, h⟩ := of_ite_ne h error_ne_ok
      obtain ⟨htype, h⟩ := of_ite_ne h error_ne_ok
      cases h
      have hnonneg : minimum = (minimum.toNat : Int) := by omega
      exact ⟨hkind, minimum.toNat, hnonneg, congrArg some hnonneg,
        (Bool.not_eq_false _).mp htype⟩
  · obtain ⟨-, h⟩ := of_ite_ne h error_ne_ok
    split at h
    · cases h
    · obtain ⟨-, h⟩ := of_ite_ne h error_ne_ok
      cases (of_ite_ne h error_ne_ok).2
  · cases (of_ite_ne h error_ne_ok).2
  · cases h

/-- A size that is not fixed is one of the last field. -/
theorem laid_of_validateSize {field : Field} {last : Bool} {minimum : Int}
    {cursor : Nat} (h : validateSize field known last = .ok (minimum, false))
    (hoffset : field.offset = cursor) : Laid known cursor [field] := by
  simp only [validateSize] at h
  split at h
  · split at h
    · cases h
    · obtain ⟨-, h⟩ := of_ite_ne h error_ne_ok
      cases (of_ite_ne h error_ne_ok).2
  · case h_2 hkind =>
    obtain ⟨hsize, h⟩ := of_ite_ne h error_ne_ok
    split at h
    · cases h
    · case h_2 length hlength =>
      obtain ⟨hdependency, h⟩ := of_ite_ne h error_ne_ok
      obtain ⟨hmultiplier, -⟩ := of_ite_ne h error_ne_ok
      simp only [not_or, not_and_or, not_not] at hsize hdependency hmultiplier
      refine .sized hoffset hkind hlength hdependency.1 ?_
      unfold SizedType
      grind
  · case h_3 hkind =>
    obtain ⟨hsize, -⟩ := of_ite_ne h error_ne_ok
    simp only [not_or, not_not] at hsize
    exact .remaining hoffset hkind hsize.2.2.2.2
  · cases h

/-- **What the validation accepts is laid out.** -/
theorem laid_of_validateFields {cursor : Nat} {fields : List Field}
    (h : validateFields known cursor fields = .ok ()) : Laid known cursor fields := by
  induction fields generalizing known cursor with
  | nil => exact .nil known cursor
  | cons field rest ih =>
    obtain ⟨-, h⟩ := of_ite_ne h error_ne_ok
    obtain ⟨hname, h⟩ := of_ite_ne h error_ne_ok
    obtain ⟨hfield, h⟩ := of_ite_ne h error_ne_ok
    obtain ⟨-, h⟩ := of_ite_ne h error_ne_ok
    obtain ⟨-, h⟩ := of_ite_ne h error_ne_ok
    obtain ⟨hrole, h⟩ := of_ite_ne h error_ne_ok
    have hoffset : field.offset = cursor := not_not.mp (not_or.mp hfield).1
    split at h
    · cases h
    · case h_2 minimum hsize =>
      obtain ⟨hkind, width, rfl, hbytes, htype⟩ := validateSize_fixed hsize
      have hfresh : ∀ k ∈ known, k.name ≠ field.name := by
        intro k hk heq
        exact hname (any_eq_true.mpr ⟨k, hk, decide_eq_true heq⟩)
      exact .fixed width hoffset hkind hbytes htype (not_and.mp hrole) hfresh
        (ih (of_ite_ne h error_ne_ok).2)
    · case h_3 minimum hsize =>
      cases rest with
      | nil => exact laid_of_validateSize hsize hoffset
      | cons next rest => cases h

/-! ## The loop of `Decode` -/

section Run

variable {hex : HexTexts}

/-- A byte string of the width of its type has a value; an unsigned one is its number. -/
theorem decodeValue_of_width {type : String} {encoded : List Byte}
    (h : validFixedTypeWidth type encoded.length = true) :
    ∃ value integer, decodeValue hex type encoded = some (value, integer) ∧
      (uintTypeWidth type ≠ none → integer = some (bigEndian encoded)) := by
  unfold validFixedTypeWidth at h
  split at h
  · exact ⟨_, _, if_neg (not_not.mpr (of_decide_eq_true h)), fun hu => absurd (by decide) hu⟩
  · exact ⟨_, _, if_neg (not_not.mpr (of_decide_eq_true h)), fun hu => absurd (by decide) hu⟩
  · exact ⟨_, _, rfl, fun hu => absurd (by decide) hu⟩
  · exact ⟨_, _, if_neg (not_not.mpr (of_decide_eq_true h)), fun hu => absurd (by decide) hu⟩
  · exact ⟨_, _, if_neg (not_not.mpr (of_decide_eq_true h)), fun hu => absurd (by decide) hu⟩
  · rw [decodeValue.eq_6 hex type encoded (by assumption) (by assumption) (by assumption)
      (by assumption) (by assumption)]
    exact ⟨_, _, if_neg (not_not.mpr (of_decide_eq_true h)), fun _ => rfl⟩

variable {raw : List Byte}

variable {field : Field}

/-- One round of the loop, at a field whose width is found. -/
theorem decodeFields_cons {rest : List Field} {cursor width : Nat}
    {numeric : GoMap String Nat} {values : List Value} (hoffset : field.offset = cursor)
    (hlength : resolveFieldLength field raw numeric = .ok (some (width : Int)))
    (htype : validFixedTypeWidth field.type width = true) (hmax : raw.length ≤ maxArguments) :
    (raw.length < cursor + width ∧
      decodeFields hex raw (field :: rest) cursor numeric values
        = .ok (.error "length_mismatch")) ∨
    (cursor + width ≤ raw.length ∧ ∃ value integer,
      (uintTypeWidth field.type ≠ none →
        integer = some (bigEndian ((raw.drop cursor).take width))) ∧
      decodeFields hex raw (field :: rest) cursor numeric values =
        decodeFields hex raw rest (cursor + width : Nat)
          (integer.elim numeric fun n => numeric.insert field.name n)
          (values ++ [⟨field.name, field.type, field.offset, width, value⟩])) := by
  simp only [decodeFields, hoffset, ne_eq, not_true_eq_false, if_false, hlength]
  by_cases hend : cursor + width ≤ raw.length
  · obtain ⟨value, integer, hvalue, hinteger⟩ := @decodeValue_of_width hex field.type
      ((raw.drop cursor).take width) (by rw [length_slice hend]; exact htype)
    refine .inr ⟨hend, value, integer, hinteger, ?_⟩
    rw [if_neg (by omega), if_neg (by omega), slice_eq hend]
    simp only [hvalue]
    rfl
  · refine .inl ⟨by omega, ?_⟩
    split
    · rfl
    · rw [if_pos (by omega)]

/-- The numbers of the fields that say lengths are noted. -/
def Noted (raw : List Byte) (known : List Field) (numeric : GoMap String Nat) : Prop :=
  ∀ name field, known.find? (fun k => k.name = name) = some field → field.role = "length" →
    numeric.get? name = some (bigEndian (fieldBytes raw field))

/-- A decoded field is noted. -/
theorem Noted.snoc {known : List Field} {numeric : GoMap String Nat}
    (h : Noted raw known numeric) {integer : Option Nat}
    (hfresh : ∀ k ∈ known, k.name ≠ field.name)
    (hinteger : field.role = "length" → integer = some (bigEndian (fieldBytes raw field))) :
    Noted raw (known ++ [field]) (integer.elim numeric fun n => numeric.insert field.name n) := by
  intro name f hfind hrole
  rw [find?_append] at hfind
  cases hknown : known.find? fun k => k.name = name with
  | some k =>
    rw [hknown, Option.some_or] at hfind
    cases hfind
    have hname : f.name = name := of_decide_eq_true (find?_some hknown :)
    have hne : name ≠ field.name := hname ▸ hfresh f (mem_of_find?_eq_some hknown)
    cases integer with
    | none => exact h name f hknown hrole
    | some n => exact (numeric.get?_insert_ne hne n).trans (h name f hknown hrole)
  | none =>
    rw [hknown, Option.none_or] at hfind
    obtain rfl : field = f := mem_singleton.mp (mem_of_find?_eq_some hfind) |>.symm
    obtain rfl : field.name = name := of_decide_eq_true (find?_some hfind :)
    rw [hinteger hrole]
    exact numeric.get?_insert_self _ _

/-- The loop at the last field, whose width is found. -/
theorem decodeFields_last {cursor width : Nat}
    {numeric : GoMap String Nat} {values : List Value} (hoffset : field.offset = cursor)
    (hlength : resolveFieldLength field raw numeric = .ok (some (width : Int)))
    (htype : validFixedTypeWidth field.type width = true) (hmax : raw.length ≤ maxArguments) :
    (decodeFields hex raw [field] cursor numeric values = .ok (.error "length_mismatch") ∧
      cursor + width ≠ raw.length) ∨
    ∃ result stop, decodeFields hex raw [field] cursor numeric values
      = .ok (.ok (result, stop)) ∧
      (stop = raw.length ↔ cursor + width = raw.length) := by
  rcases decodeFields_cons hoffset hlength htype hmax
    with ⟨hend, h⟩ | ⟨hend, value, integer, -, h⟩
  · exact .inl ⟨h, by omega⟩
  · exact .inr ⟨_, _, h, by omega⟩

theorem resolveFieldLength_sized {numeric : GoMap String Nat}
    {count : Nat} (hkind : field.size.kind = "field")
    (hcount : numeric.get? field.size.field = some count)
    (hmultiplier : field.size.multiplier = 1 ∨ field.size.multiplier = 32) :
    resolveFieldLength field raw numeric = .ok (if count > maxArguments then none
      else some ((count * field.size.multiplier.toNat : Nat) : Int)) := by
  have hlimit : (maxArguments : Int) ≤ maxInt.tdiv field.size.multiplier
      ∧ field.size.multiplier ≠ 0 := by
    rcases hmultiplier with h | h
    all_goals
      rw [h]
      decide
  have hint : (maxArguments : Int) ≤ maxInt := by decide
  simp only [resolveFieldLength, hkind, hcount]
  by_cases hlarge : count > maxArguments
  · simp only [if_pos hlarge, ite_self]
  · rw [if_neg (by omega), if_neg hlarge, if_neg hlimit.2, if_neg (by omega),
      if_neg hlarge, Nat.cast_mul,
      Int.toNat_of_nonneg (by omega)]

/-- **Along fields that are laid out the loop finds what it looks up, and it stops at the
    end of the bytes exactly if the widths add up to their number.** -/
theorem decodeFields_run (hmax : raw.length ≤ maxArguments) {known : List Field}
    {cursor : Nat} {fields : List Field} (h : Laid known cursor fields)
    {numeric : GoMap String Nat} (hnumeric : Noted raw known numeric) (values : List Value) :
    (decodeFields hex raw fields cursor numeric values = .ok (.error "length_mismatch") ∧
      cursor + totalWidth raw (known ++ fields) fields ≠ raw.length) ∨
    ∃ result stop, decodeFields hex raw fields cursor numeric values
      = .ok (.ok (result, stop)) ∧
      (stop = raw.length ↔ cursor + totalWidth raw (known ++ fields) fields = raw.length) := by
  induction h generalizing numeric values with
  | nil known cursor =>
    refine .inr ⟨values, cursor, rfl, ?_⟩
    rw [totalWidth]
    omega
  | @fixed known cursor field rest width hoffset hkind hbytes htype hrole hfresh hrest ih =>
    have hlength : resolveFieldLength field raw numeric = .ok (some (width : Int)) := by
      simp only [resolveFieldLength, hkind, hbytes]
    have hwidth : ∀ fields, widthOf raw fields field = width := by
      intro fields
      rw [widthOf, if_pos hkind, hbytes]
      rfl
    have hplace : fieldBytes raw field = (raw.drop cursor).take width := by
      rw [fieldBytes, hoffset, hbytes]
      rfl
    rw [totalWidth, hwidth, ← add_assoc, append_cons]
    rcases decodeFields_cons hoffset hlength htype hmax
      with ⟨hend, h⟩ | ⟨hend, value, integer, hinteger, h⟩
    · exact .inl ⟨h, by omega⟩
    · -- the number of the field is noted for the fields behind it
      rw [h]
      exact ih (hnumeric.snoc hfresh fun hlength => hplace ▸ hinteger (hrole hlength)) _
  | @sized known cursor field length hoffset hkind hlength hrole htype =>
    -- the number that tells the length was noted when its field was decoded
    have hcount := hnumeric _ length hlength hrole
    have hmultiplier : field.size.multiplier = 1 ∨ field.size.multiplier = 32 :=
      htype.imp And.right And.right
    have hwidth : totalWidth raw (known ++ [field]) [field]
        = bigEndian (fieldBytes raw length) * field.size.multiplier.toNat := by
      rw [totalWidth, totalWidth, add_zero, widthOf, if_neg (by rw [hkind]; decide), if_pos hkind,
        numberAt, find?_append, hlength]
      rfl
    have hresolve := @resolveFieldLength_sized raw _ _ _ hkind hcount hmultiplier
    rw [hwidth]
    by_cases hlarge : bigEndian (fieldBytes raw length) > maxArguments
    · -- so many bytes are more than there can be
      rw [if_pos hlarge] at hresolve
      refine .inl
        ⟨by simp only [decodeFields, hoffset, ne_eq, not_true_eq_false, if_false, hresolve], ?_⟩
      rcases hmultiplier with h | h
      all_goals
        rw [h]
        simp only [Int.reduceToNat]
        omega
    · rw [if_neg hlarge] at hresolve
      refine decodeFields_last hoffset hresolve ?_ hmax
      rcases htype with ⟨htype, -⟩ | ⟨htype | htype, h⟩
      · rw [htype]
        rfl
      all_goals
        rw [htype, h]
        exact decide_eq_true (Nat.mul_mod_left _ 32)
  | @remaining known cursor field hoffset hkind htype =>
    have hwidth : totalWidth raw (known ++ [field]) [field] = raw.length - cursor := by
      rw [totalWidth, totalWidth, add_zero, widthOf, if_neg (by rw [hkind]; decide),
        if_neg (by rw [hkind]; decide), hoffset]
      rfl
    have hresolve : resolveFieldLength field raw numeric
        = .ok (if (raw.length : Int) ≥ cursor then
        some (raw.length - cursor : Int) else none) := by
      simp only [resolveFieldLength, hkind, hoffset]
    rw [hwidth]
    by_cases hend : cursor ≤ raw.length
    · rw [if_pos (by omega), ← Int.ofNat_sub hend] at hresolve
      exact decodeFields_last hoffset hresolve (by rw [htype]; rfl) hmax
    · -- the fields in front already take more bytes than there are
      rw [if_neg (by omega)] at hresolve
      refine .inl ⟨?_, by omega⟩
      simp only [decodeFields, hoffset, ne_eq, not_true_eq_false, if_false, hresolve]

end Run

/-! ## Values determine the bytes -/

/-- Texts that are decoded determine their bytes. -/
theorem HexTexts.Lawful.encode_injective {hex : HexTexts} (h : hex.Lawful) {a b : List Byte}
    (heq : hex.encode a = hex.encode b) : a = b := by
  have hdecoded := congrArg hex.decode heq
  rw [h.decode_encode, h.decode_encode] at hdecoded
  exact Option.some.inj hdecoded

/-- The first word of a byte string, and the words of the rest. -/
theorem words_of_le {encoded : List Byte} (h : 32 ≤ encoded.length) :
    words encoded = encoded.take 32 :: words (encoded.drop 32) := by
  have hcount : encoded.length / 32 = (encoded.drop 32).length / 32 + 1 := by
    rw [length_drop]
    omega
  rw [words, hcount, range_succ_eq_map, map_cons, map_map, words]
  refine congrArg₂ _ rfl (map_congr_left fun index _ => ?_)
  show (encoded.drop (32 * (index + 1))).take 32 = ((encoded.drop 32).drop (32 * index)).take 32
  rw [drop_drop, Nat.mul_succ, add_comm]

/-- Where the texts of words determine them, they determine the byte string. -/
theorem words_injective {shown : List Byte → String}
    (hshown : ∀ a b : List Byte, a.length = b.length → shown a = shown b → a = b)
    (count : Nat)
    {a b : List Byte} (ha : a.length = 32 * count) (hb : b.length = 32 * count)
    (h : (words a).map shown = (words b).map shown) : a = b := by
  induction count generalizing a b with
  | zero => rw [eq_nil_of_length_eq_zero ha, eq_nil_of_length_eq_zero hb]
  | succ count ih =>
    have hwords : words a = a.take 32 :: words (a.drop 32) := words_of_le (by omega)
    have hwords' : words b = b.take 32 :: words (b.drop 32) := words_of_le (by omega)
    rw [hwords, hwords', map_cons, map_cons] at h
    obtain ⟨hhead, hrest⟩ := List.cons.inj h
    rw [← take_append_drop 32 a, ← take_append_drop 32 b,
      hshown _ _ (by rw [length_take, length_take]; omega) hhead,
      ih (by rw [length_drop]; omega) (by rw [length_drop]; omega) hrest]

section Values

variable {hex : HexTexts}

/-- Two byte strings of one length with one value are the same. -/
theorem decodeValue_injective (hlawful : hex.Lawful) {type : String} {a b : List Byte}
    {value : Shown} {m n : Option Nat} (ha : decodeValue hex type a = some (value, m))
    (hb : decodeValue hex type b = some (value, n)) (hlength : a.length = b.length) : a = b := by
  have hnumber : ∀ a b : List Byte, a.length = b.length →
      toString (bigEndian a) = toString (bigEndian b) → a = b :=
    fun a b hlength h => bigEndian_injective hlength (Nat.repr_injective h)
  unfold decodeValue at ha
  split at ha
  all_goals
    simp only [decodeValue, Option.ite_none_left_eq_some, Option.some.injEq,
      Prod.mk.injEq] at ha hb
  · exact hlawful.address_injective a b (not_not.mp ha.1) (not_not.mp hb.1)
      (Shown.text.inj (ha.2.1.trans hb.2.1.symm))
  · exact hlawful.encode_injective (Shown.text.inj (ha.2.1.trans hb.2.1.symm))
  · exact hlawful.encode_injective (Shown.text.inj (ha.1.trans hb.1.symm))
  · exact words_injective hnumber (a.length / 32) (by omega) (by omega)
      (Shown.texts.inj (ha.2.1.trans hb.2.1.symm))
  · exact words_injective (fun _ _ _ => hlawful.encode_injective) (a.length / 32) (by omega)
      (by omega) (Shown.texts.inj (ha.2.1.trans hb.2.1.symm))
  · exact hnumber a b hlength (Shown.text.inj (ha.2.1.trans hb.2.1.symm))

/-- Values that lie one behind the other in a byte string, from a place to another. -/
inductive Tiles (hex : HexTexts) (raw : List Byte) : Nat → List Value → Nat → Prop
  | nil (start : Nat) : Tiles hex raw start [] start
  | cons {start width stop : Nat} {v : Value} {rest : List Value} (integer : Option Nat)
      (hoffset : v.offset = start) (hwidth : v.length = width) (hend : start + width ≤ raw.length)
      (hvalue : decodeValue hex v.type ((raw.drop start).take width) = some (v.value, integer))
      (hrest : Tiles hex raw (start + width) rest stop) : Tiles hex raw start (v :: rest) stop

/-- The loop puts the values one behind the other. -/
theorem decodeFields_tiles {raw : List Byte} {fields : List Field} {cursor : Nat}
    {numeric : GoMap String Nat} {values result : List Value} {stop : Int}
    (h : decodeFields hex raw fields cursor numeric values = .ok (.ok (result, stop))) :
    ∃ added stop', result = values ++ added ∧ stop = (stop' : Nat) ∧
      Tiles hex raw cursor added stop' := by
  have hstopped :
      (.ok (.error "length_mismatch") : Except Crash (Except String (List Value × Int)))
      ≠ .ok (.ok (result, stop)) := by
    rintro ⟨⟩
  induction fields generalizing cursor numeric values with
  | nil =>
    cases h
    exact ⟨[], cursor, (append_nil _).symm, rfl, .nil cursor⟩
  | cons field rest ih =>
    obtain ⟨hoffset, h⟩ := of_ite_ne h hstopped
    rw [not_not] at hoffset
    split at h
    · cases h
    · cases h
    · case h_3 length hlength =>
      obtain ⟨hrange, h⟩ := of_ite_ne h hstopped
      obtain ⟨hend, h⟩ := of_ite_ne h hstopped
      obtain ⟨width, rfl⟩ : ∃ width : Nat, length = width := ⟨length.toNat, by omega⟩
      rw [hoffset] at h hend
      rw [slice_eq (by omega)] at h
      cases hvalue : decodeValue hex field.type ((raw.drop cursor).take width) with
      | none =>
        simp only [hvalue] at h
        cases h
      | some found =>
        simp only [hvalue] at h
        obtain ⟨added, stop', rfl, hstop, htiles⟩ := @ih (cursor + width) _ _ h
        exact ⟨_ :: added, stop', append_assoc _ _ _, hstop,
          .cons found.2 rfl rfl (by omega) hvalue htiles⟩

/-- **Values that tile two byte strings are of one byte string.** -/
theorem Tiles.injective (hlawful : hex.Lawful) {raw raw' : List Byte} {start stop stop' : Nat}
    {values : List Value}
    (h : Tiles hex raw start values stop) (h' : Tiles hex raw' start values stop')
    (hstop : stop = raw.length) (hstop' : stop' = raw'.length) :
    raw.drop start = raw'.drop start := by
  induction values generalizing start with
  | nil =>
    cases h
    cases h'
    rw [drop_eq_nil_of_le (by omega), drop_eq_nil_of_le (by omega)]
  | cons v rest ih =>
    cases h with
    | @cons _ width _ _ _ integer hoffset hwidth hend hvalue hrest =>
    cases h' with
    | @cons _ width' _ _ _ integer' hoffset' hwidth' hend' hvalue' hrest' =>
    obtain rfl : width = width' := by omega
    have hslice := decodeValue_injective hlawful hvalue hvalue'
      ((length_slice hend).trans (length_slice hend').symm)
    rw [← take_append_drop width (raw.drop start), ← take_append_drop width (raw'.drop start),
      hslice, drop_drop, drop_drop, ih hrest hrest']

end Values

/-! ## Decoding under accepted schemas -/

section Accepted

variable (schemaDigest : Schema → Option String)

/-- An analysis that was read, or one that was built. -/
def Accepted (analysis : Analysis) : Prop :=
  (∃ read raw, parseAnalysis schemaDigest read raw = .ok analysis) ∨
    ∃ fields schema, finalizeSchema schemaDigest fields = .ok schema ∧
      derivedAnalysis schemaDigest schema = .ok analysis

variable {schemaDigest}

theorem laid_of_validateSchemaShape {schema : Schema} {requireDigest : Bool}
    (h : validateSchemaShape schemaDigest schema requireDigest = .ok ()) :
    Laid [] 0 schema.fields := by
  obtain ⟨-, h⟩ := of_ite_ne h error_ne_ok
  cases hfields : validateFields [] 0 schema.fields with
  | error message =>
    rw [hfields] at h
    cases h
  | ok => exact laid_of_validateFields hfields

variable {analysis : Analysis}

theorem validateAnalysis_of_parse {read : List Byte → Except String Analysis} {raw : List Byte}
    (h : parseAnalysis schemaDigest read raw = .ok analysis) :
    validateAnalysis schemaDigest analysis = .ok () := by
  obtain ⟨-, h⟩ := of_ite_ne h error_ne_ok
  split at h
  · cases h
  · split at h
    · cases h
    · case h_2 hvalid =>
      cases h
      exact hvalid

/-- The schema of an accepted analysis lays its fields out without gaps. -/
theorem Accepted.laid (h : Accepted schemaDigest analysis)
    (hderived : analysis.status = "derived") :
    ∃ schema, analysis.schema = some schema ∧ Laid [] 0 schema.fields := by
  rcases h with ⟨read, raw, h⟩ | ⟨fields, schema, -, h⟩
  · have hvalid := validateAnalysis_of_parse h
    simp only [validateAnalysis, hderived] at hvalid
    obtain ⟨-, hvalid⟩ := of_ite_ne hvalid error_ne_ok
    cases hschema : analysis.schema with
    | none =>
      rw [hschema] at hvalid
      cases hvalid
    | some schema =>
      rw [hschema] at hvalid
      exact ⟨schema, rfl, laid_of_validateSchemaShape (of_ite_ne hvalid error_ne_ok).2⟩
  · simp only [derivedAnalysis] at h
    split at h
    · cases h
    · case h_2 hvalid =>
      cases h
      exact ⟨schema, rfl, laid_of_validateSchemaShape hvalid⟩

variable {hex : HexTexts}

/-- What the result of `Decode` has to be for the bytes of a text. -/
structure Faithful (hex : HexTexts) (fields : List Field) (rawHex : String)
    (d : Decoding) : Prop where
  canonical : d.reason ≠ "noncanonical_value"
  decoded_iff : d.status = "decoded" ↔ ∃ raw, hex.decode rawHex = some raw ∧
    raw.length ≤ maxArguments ∧ raw.length = totalWidth raw fields fields
  tiles : ∀ raw, hex.decode rawHex = some raw → d.status = "decoded" →
    Tiles hex raw 0 d.arguments raw.length

theorem faithful_mismatch {fields : List Field} {rawHex : String} {schema : Option Schema}
    {resolution : String} (h : ∀ raw, hex.decode rawHex = some raw →
      raw.length ≤ maxArguments →
      raw.length ≠ totalWidth raw fields fields) :
    Faithful hex fields rawHex ⟨"data_invalid", "length_mismatch", schema, resolution, []⟩ where
  canonical := (by decide : "length_mismatch" ≠ "noncanonical_value")
  decoded_iff := ⟨fun h => absurd h (by decide : "data_invalid" ≠ "decoded"),
    fun ⟨raw, hraw, hmax, htotal⟩ => absurd htotal (h raw hraw hmax)⟩
  tiles := fun _ _ h => absurd h (by decide : "data_invalid" ≠ "decoded")

/-- Decoding by a laid-out schema never crashes and is faithful. -/
theorem decode_laid {schema : Schema} (hderived : analysis.status = "derived")
    (hschema : analysis.schema = some schema) (hlaid : Laid [] 0 schema.fields)
    {resolution : String}
    (hresolution : resolution = "exact_address" ∨ resolution = "code_hash") (rawHex : String) :
    ∃ d, decode hex rawHex analysis resolution = .ok d ∧
      Faithful hex schema.fields rawHex d := by
  have hvalid : ¬ (resolution ≠ "exact_address" ∧ resolution ≠ "code_hash") := by
    rintro ⟨h₁, h₂⟩
    exact hresolution.elim h₁ h₂
  simp only [decode, hderived, hschema, if_neg hvalid]
  split
  · case h_1 hraw => exact ⟨_, rfl, faithful_mismatch fun raw h => by cases hraw.symm.trans h⟩
  · case h_2 raw hraw =>
    have hsame : ∀ {raw'}, hex.decode rawHex = some raw' → raw' = raw :=
      fun h => Option.some.inj (h.symm.trans hraw)
    by_cases hmax : raw.length > maxArguments
    · rw [if_pos hmax]
      exact ⟨_, rfl, faithful_mismatch fun raw' h hle => by rw [hsame h] at hle; omega⟩
    · rw [if_neg hmax]
      have hrun := @decodeFields_run hex raw (by omega) _ _ _ hlaid GoMap.empty
        (fun _ _ h => by cases h) []
      rw [zero_add, nil_append] at hrun
      -- the loop stops early, or it reaches some end, which is compared with the bytes
      rcases hrun with ⟨hloop, htotal⟩ | ⟨result, stop, hloop, htotal⟩
      · rw [Nat.cast_zero] at hloop
        simp only [hloop]
        exact ⟨_, rfl, faithful_mismatch fun raw' h _ => hsame h ▸ htotal.symm⟩
      · obtain ⟨added, stop', hadded, hstop, htiles⟩ := decodeFields_tiles hloop
        rw [Nat.cast_zero] at hloop
        simp only [hloop]
        by_cases hend : stop = raw.length
        · rw [if_neg (not_not.mpr hend)]
          obtain rfl : result = added := hadded
          refine ⟨_, rfl,
            ⟨(by decide : "" ≠ "noncanonical_value"), ⟨fun _ => ⟨raw, hraw, by omega,
            (htotal.mp hend).symm⟩, fun _ => rfl⟩, fun raw' h _ => ?_⟩⟩
          rw [hsame h]
          obtain rfl : stop' = raw.length := by omega
          exact htiles
        · rw [if_pos hend]
          exact ⟨_, rfl, faithful_mismatch fun raw' h _ htotal' =>
            hend (htotal.mpr (hsame h ▸ htotal'.symm))⟩

end Accepted

/-- **Under an accepted schema** `Decode` does not fail and finds no value that is not
    canonical.  It decodes the texts of the bytes whose number is the sum of the widths; the
    values it returns lie one behind the other and determine the bytes. -/
theorem accepted_schema_decodes (schemaDigest : Schema → Option String) (hex : HexTexts)
    (hlawful : hex.Lawful) {analysis : Analysis} (h : Accepted schemaDigest analysis)
    (hderived : analysis.status = "derived") {resolution : String}
    (hresolution : resolution = "exact_address" ∨ resolution = "code_hash") :
    ∃ schema, analysis.schema = some schema ∧
      (∀ rawHex, ∃ d, decode hex rawHex analysis resolution = .ok d ∧
        Faithful hex schema.fields rawHex d) ∧
      (∀ raw, ∃ d, decode hex (hex.encode raw) analysis resolution = .ok d ∧
        (d.status = "decoded" ↔ raw.length ≤ maxArguments ∧
          raw.length = totalWidth raw schema.fields schema.fields)) ∧
      ∀ rawHex rawHex' raw raw' d d', hex.decode rawHex = some raw →
        hex.decode rawHex' = some raw' →
        decode hex rawHex analysis resolution = .ok d → d.status = "decoded" →
        decode hex rawHex' analysis resolution = .ok d' → d'.status = "decoded" →
        d.arguments = d'.arguments → raw = raw' := by
  obtain ⟨schema, hschema, hlaid⟩ := h.laid hderived
  have hdecode : ∀ rawHex, ∃ d, decode hex rawHex analysis resolution = .ok d ∧
      Faithful hex schema.fields rawHex d := decode_laid hderived hschema hlaid hresolution
  refine ⟨schema, hschema, hdecode, fun raw => ?_, ?_⟩
  · obtain ⟨d, hd, hfaithful⟩ := hdecode (hex.encode raw)
    refine ⟨d, hd, ?_⟩
    rw [hfaithful.decoded_iff, hlawful.decode_encode]
    simp
  · intro rawHex rawHex' raw raw' d d' hraw hraw' hd hdecoded hd' hdecoded' harguments
    obtain ⟨_, heq, hfaithful⟩ := hdecode rawHex
    cases hd.symm.trans heq
    obtain ⟨_, heq', hfaithful'⟩ := hdecode rawHex'
    cases hd'.symm.trans heq'
    have htiles := hfaithful.tiles raw hraw hdecoded
    rw [harguments] at htiles
    exact htiles.injective hlawful (hfaithful'.tiles raw' hraw' hdecoded') rfl rfl

/-- A length and the bytes it counts. -/
def payload : List Field :=
  [⟨"size", "uint8", 0, "length", ["size()"], ⟨"fixed", some 1, "", 0⟩⟩,
   ⟨"data", "bytes", 1, "value", ["data()"], ⟨"field", none, "size", 1⟩⟩]

/-- What stands for the digest of a schema. -/
def zeroDigest : String :=
  "0x0000000000000000000000000000000000000000000000000000000000000000"

/-- The schema of these fields. -/
def payloadSchema : Schema := ⟨2, "solidity_ast", "solady-cwia-offsets",
  "0xbc97b0d077a3c5d5603808caeeb3fe572dcb2448c5536b66316d1b6b129cfca3", zeroDigest, payload⟩

/-- The analysis with this schema. -/
def payloadAnalysis : Analysis := ⟨1, "derived", "", some payloadSchema⟩

/-- Texts without a checksum. -/
def plainTexts : HexTexts := ⟨Hex.text, Hex.parse, Hex.text⟩

theorem plainTexts_lawful : plainTexts.Lawful where
  decode_encode := parse_text
  address_injective a b _ _ h :=
    Option.some.inj ((parse_text a).symm.trans ((congrArg Hex.parse h).trans (parse_text b)))

/-- Two bytes behind their number are decoded. -/
theorem payload_decodes : plainTexts.Lawful ∧ Accepted (fun _ => some zeroDigest) payloadAnalysis
    ∧ ∃ d, decode plainTexts "0x02beef" payloadAnalysis "code_hash" = .ok d
      ∧ d.status = "decoded" ∧ d.arguments.map Value.value = [.text "2", .text "0xbeef"]
      ∧ Faithful plainTexts payload "0x02beef" d := by
  have haccepted : Accepted (fun _ => some zeroDigest) payloadAnalysis :=
    .inr ⟨payload, payloadSchema, by decide +kernel, by decide +kernel⟩
  obtain ⟨_, hschema, hdecode, -⟩ :=
    accepted_schema_decodes (fun _ => some zeroDigest) plainTexts
    plainTexts_lawful haccepted rfl (.inr rfl)
  cases hschema
  obtain ⟨d, hd, hfaithful⟩ := hdecode "0x02beef"
  have hrun : (decode plainTexts "0x02beef" payloadAnalysis "code_hash").toOption.map
      (fun d => (d.status, d.arguments.map Value.value))
        = some ("decoded", [.text "2", .text "0xbeef"]) := by
    decide +kernel
  rw [hd] at hrun
  obtain ⟨hstatus, hvalues⟩ := Prod.mk.inj (Option.some.inj hrun)
  exact ⟨plainTexts_lawful, haccepted, d, hd, hstatus, hvalues, hfaithful⟩

end CwiaArgs
