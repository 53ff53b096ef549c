import Etherview.VerifyRanges

/-! # Matching code up to compiler transformations

    `matchTransformedCode` of `internal/verify/engine_v2.go`.  Deployed code may
    differ from compiled code in its metadata, in the addresses of its libraries
    and in its immutables, and creation code may carry constructor arguments behind
    it.  The matcher overlays the deployed bytes of these ranges on the compiled
    code, compares, and returns the transformations with the values it read. The three
    overlay phases are folds over sorted maps. -/

namespace Verify

open Hex Patch Transact

/-! ## Constructor arguments -/

/-- The errors of `abicalldata`. -/
inductive DecodeError where
  | invalidABI
  | missingConstructor
  | argumentLimit
  | invalidArguments
  | nonCanonical
deriving DecidableEq, Repr

/-- The ABI documents of a compiler, with the two things the matcher asks of them:
    `jsonArray`, and `abicalldata.ValidateConstructor`, which decodes with a bounded
    third-party decoder. -/
class AbiLibrary (A : Type) where
  jsonArray : A → Bool
  validateConstructor : A → List Byte → Except DecodeError Unit

/-- The arguments are those of the constructor of the ABI. -/
def validateConstructorArguments {A : Type} [AbiLibrary A] (rawABI : A) (arguments : List Byte) :
    Except String Unit :=
  if AbiLibrary.jsonArray rawABI = false then
    failIf (arguments ≠ []) "constructor arguments exist without an ABI"
  else
    (AbiLibrary.validateConstructor rawABI arguments).mapError fun
      | .invalidABI => "compiled contract ABI is invalid"
      | .missingConstructor => "constructor arguments exist without a constructor"
      | .argumentLimit => "constructor arguments exceed decoding bounds"
      | .invalidArguments => "constructor arguments do not decode"
      | .nonCanonical => "constructor arguments are not canonically encoded"

/-! ## Transformations -/

/-- Full or partial. -/
inductive MatchType where
  | fullMatch
  | partialMatch
deriving DecidableEq, Repr

/-- What a transformation does. -/
inductive TransformationKind where
  | replace
  | insert
deriving DecidableEq, Repr

/-- Why the codes differ. -/
inductive TransformationReason where
  | cborAuxdata
  | library
  | immutable
  | constructorArguments
deriving DecidableEq, Repr

/-- The texts of the reasons. -/
def TransformationReason.text : TransformationReason → String
  | .cborAuxdata => "cborAuxdata"
  | .library => "library"
  | .immutable => "immutable"
  | .constructorArguments => "constructorArguments"

/-- `Transformation`. -/
structure Transformation where
  kind : TransformationKind
  reason : TransformationReason
  offset : Nat
  id : String
deriving DecidableEq, Repr

/-- The order of the returned transformations. -/
def transformationLE (left right : Transformation) : Prop :=
  if left.offset ≠ right.offset then left.offset < right.offset
  else if left.reason.text ≠ right.reason.text then left.reason.text < right.reason.text
  else left.id ≤ right.id

instance : DecidableRel transformationLE := fun left right => by
  unfold transformationLE
  infer_instance

/-- `TransformationValues`. -/
structure TransformationValues where
  cborAuxdata : GoMap String String
  constructorArguments : String
  libraries : GoMap String String
  immutables : GoMap String String

namespace TransformationValues

/-- No values. -/
def none : TransformationValues := ⟨.empty, "", .empty, .empty⟩

/-- Store the text of a value under its identifier. -/
def store (values : TransformationValues) (reason : TransformationReason) (id : String)
    (value : List Byte) : TransformationValues :=
  match reason with
  | .cborAuxdata => { values with cborAuxdata := values.cborAuxdata.insert id (Hex.text value) }
  | .library => { values with libraries := values.libraries.insert id (Hex.text value) }
  | .immutable => { values with immutables := values.immutables.insert id (Hex.text value) }
  | .constructorArguments => { values with constructorArguments := Hex.text value }

/-- The text stored for a transformation. -/
def lookup (values : TransformationValues) (reason : TransformationReason) (id : String) :
    Option String :=
  match reason with
  | .cborAuxdata => values.cborAuxdata.get? id
  | .library => values.libraries.get? id
  | .immutable => values.immutables.get? id
  | .constructorArguments =>
    if values.constructorArguments = "" then Option.none else some values.constructorArguments

end TransformationValues

/-- `VerificationMatchDetails`. -/
structure VerificationMatchDetails where
  matchType : MatchType
  transformations : List Transformation
  values : TransformationValues

/-- `AuxdataValue`. -/
structure AuxdataValue where
  offset : Nat
  value : String
deriving DecidableEq, Repr

/-- `codeTransformationInput`. -/
structure CodeTransformationInput (A : Type) where
  auxdata : GoMap String AuxdataValue
  linkReferences : LinkReferences
  immutableReferences : ImmutableReferences
  abi : A
  creation : Bool

variable {A : Type}

/-! ## Declared ranges -/

/-- The range of one auxdata. -/
def auxdataRanges : String × AuxdataValue → Except VerifyError (List BytecodeRange)
  | (id, auxdata) =>
    match decodeBytecode auxdata.value with
    | .ok value => do
        failIf (id = "" ∨ value = []) .compilerOutputMalformed
        return [⟨auxdata.offset, value.length⟩]
    | .error _ => .error .compilerOutputMalformed

/-- The ranges of the libraries of one source. -/
def sourceRanges : String × GoMap String (List BytecodeRange) →
    Except VerifyError (List BytecodeRange)
  | (source, libraries) => do
      failIf (source = "" ∨ libraries.entries = []) .compilerOutputMalformed
      collect libraryRanges libraries.entries

/-- All ranges in which the codes may differ. -/
def collectTransformationRanges (input : CodeTransformationInput A) :
    Except VerifyError (List BytecodeRange) := do
  let auxdata ← collect auxdataRanges input.auxdata.entries
  let links ← collect sourceRanges input.linkReferences.entries
  let immutables ← collect immutableRanges input.immutableReferences.entries
  return auxdata ++ links ++ immutables

/-! ## The overlay -/

/-- What the matcher has built so far. -/
structure Overlay where
  transformed : List Byte
  transformations : List Transformation
  values : TransformationValues
  auxdataChanged : Bool

/-- Before the first phase. -/
def Overlay.start (compiled : List Byte) : Overlay := ⟨compiled, [], .none, false⟩

/-- The body of the loop over the auxdata. -/
def applyAuxdata (deployed : List Byte) (compiledLength : Nat) (overlay : Overlay) :
    String × AuxdataValue → Except VerifyError Overlay
  | (id, auxdata) =>
    match decodeBytecode auxdata.value with
    | .error _ => .error .compilerOutputMalformed
    | .ok expected =>
      if expected.length > compiledLength - auxdata.offset then
        .error .compilerOutputMalformed
      -- auxdata that is deployed as it was compiled leaves no transformation
      else if window deployed ⟨auxdata.offset, expected.length⟩ = expected then .ok overlay
      else .ok
        { transformed := write overlay.transformed auxdata.offset
            (window deployed ⟨auxdata.offset, expected.length⟩)
          transformations := overlay.transformations
            ++ [⟨.replace, .cborAuxdata, auxdata.offset, id⟩]
          values := overlay.values.store .cborAuxdata id
            (window deployed ⟨auxdata.offset, expected.length⟩)
          auxdataChanged := true }

/-- The state of the loop of `applyConsistentRanges`; a nil value is empty. -/
structure Spread where
  value : List Byte
  transformed : List Byte
  transformations : List Transformation

/-- The error of an identity with two values. -/
def repeatedValuesError : VerifyError := .other "repeated transformation values are inconsistent"

/-- The body of the loop of `applyConsistentRanges`. -/
def applyConsistentRange (deployed : List Byte) (reason : TransformationReason) (id : String)
    (spread : Spread) (span : BytecodeRange) : Except VerifyError Spread :=
  if span.stop > spread.transformed.length ∨ span.stop > deployed.length then
    .error .compilerOutputMalformed
  else if spread.value ≠ [] ∧ spread.value ≠ window deployed span then
    .error repeatedValuesError
  else .ok
    { value := if spread.value = [] then window deployed span else spread.value
      transformed := write spread.transformed span.start (window deployed span)
      transformations := spread.transformations ++ [⟨.replace, reason, span.start, id⟩] }

/-- Copies the ranges of one identity, which carry one value. -/
def applyConsistentRanges (transformed deployed : List Byte) (ranges : List BytecodeRange)
    (reason : TransformationReason) (id : String) (transformations : List Transformation) :
    Except VerifyError Spread :=
  ranges.foldlM (applyConsistentRange deployed reason id) ⟨[], transformed, transformations⟩

/-- The body of the loops over the libraries and over the immutables. -/
def applyReference (deployed : List Byte) (reason : TransformationReason) (overlay : Overlay) :
    String × List BytecodeRange → Except VerifyError Overlay
  | (id, ranges) => do
      let spread ← applyConsistentRanges overlay.transformed deployed ranges reason id
        overlay.transformations
      return { overlay with
        transformed := spread.transformed
        transformations := spread.transformations
        values := if spread.value = [] then overlay.values
          else overlay.values.store reason id spread.value }

namespace CodeTransformationInput

/-- The libraries in the order they are applied, under `source:library`. -/
def libraries (input : CodeTransformationInput A) : List (String × List BytecodeRange) :=
  input.linkReferences.sortedEntries.flatMap fun source =>
    source.2.sortedEntries.map fun library => (source.1 ++ ":" ++ library.1, library.2)

/-- The immutables in the order they are applied. -/
def immutables (input : CodeTransformationInput A) : List (String × List BytecodeRange) :=
  input.immutableReferences.sortedEntries

end CodeTransformationInput

/-- The three overlay phases. -/
def overlayCode (input : CodeTransformationInput A) (deployed compiled : List Byte) :
    Except VerifyError Overlay := do
  let overlay ← input.auxdata.sortedEntries.foldlM (applyAuxdata deployed compiled.length)
    (.start compiled)
  let overlay ← input.libraries.foldlM (applyReference deployed .library) overlay
  input.immutables.foldlM (applyReference deployed .immutable) overlay

variable [AbiLibrary A]

/-- The constructor arguments behind creation code; no result is a mismatch. -/
def appendArguments (input : CodeTransformationInput A) (deployed : List Byte)
    (compiledLength : Nat) (overlay : Overlay) : Option Overlay :=
  if input.creation = false then some overlay
  else
    match validateConstructorArguments input.abi (deployed.drop compiledLength) with
    | .error _ => none
    | .ok () =>
      if deployed.drop compiledLength = [] then some overlay
      else some { overlay with
          transformed := overlay.transformed ++ deployed.drop compiledLength
          transformations := overlay.transformations
            ++ [⟨.insert, .constructorArguments, compiledLength, ""⟩]
          values := overlay.values.store .constructorArguments "" (deployed.drop compiledLength) }

/-- The result for an overlay that is the deployed code. -/
def matchDetails (input : CodeTransformationInput A) (overlay : Overlay) :
    VerificationMatchDetails where
  matchType := if input.auxdata.entries ≠ [] ∧ overlay.auxdataChanged = false then .fullMatch
    else .partialMatch
  transformations := overlay.transformations.insertionSort transformationLE
  values := overlay.values

/-- The last part of `matchTransformedCode`. -/
def finishMatch (input : CodeTransformationInput A) (deployed compiled : List Byte)
    (overlay : Overlay) : Option VerificationMatchDetails :=
  match appendArguments input deployed compiled.length overlay with
  | none => none
  | some overlay =>
    if deployed = overlay.transformed then some (matchDetails input overlay) else none

/-- `matchTransformedCode`; no details is a mismatch. -/
def matchTransformedCode (deployed compiled : List Byte) (input : CodeTransformationInput A) :
    Except VerifyError (Option VerificationMatchDetails) :=
  if deployed.length < compiled.length then .ok none
  else if input.creation = false ∧ deployed.length ≠ compiled.length then .ok none
  else do
    let ranges ← collectTransformationRanges input
    validateRanges ranges compiled.length
    let overlay ← overlayCode input deployed compiled
    return finishMatch input deployed compiled overlay

end Verify
