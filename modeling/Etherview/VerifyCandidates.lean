import Mathlib.Data.Prod.Lex
import Etherview.Slices
import Etherview.VerifyAuxdata

/-! # Verifying candidates

    `VerifyCandidateArtifacts` of `internal/verify/candidate_v2.go`.  Every contract of a
    compilation is a candidate for the code on the chain.  A candidate is compared with
    the creation code, with the runtime code, or with both; blueprints are compared by
    their init code.  The results are collected twice, in a list that is ranked and in a
    map by name, the list is filtered in its own storage and sorted, and the map is read
    in the order of the list.

    The loop stops at the first error, so one faulty candidate fails the verification of
    all. -/

namespace Verify

open Hex Patch Transact

variable {A : Type}

/-! ## Candidates -/

/-- `CandidateArtifact`, without the documents that are only passed on. -/
structure CandidateArtifact (A : Type) where
  fileName : String
  contractName : String
  abi : A
  creationBytes : List Byte
  runtimeBytes : List Byte
  creationAuxdata : GoMap String AuxdataValue
  runtimeAuxdata : GoMap String AuxdataValue
  creationLinks : LinkReferences
  runtimeLinks : LinkReferences
  runtimeImmutables : ImmutableReferences

instance [Inhabited A] : Inhabited (CandidateArtifact A) :=
  ⟨⟨"", "", default, [], [], .empty, .empty, .empty, .empty, .empty⟩⟩

/-- The file and the contract. -/
def CandidateArtifact.fullyQualifiedName (candidate : CandidateArtifact A) : String :=
  candidate.fileName ++ ":" ++ candidate.contractName

/-- `BytecodePair`: the code on the chain, as texts. -/
structure BytecodePair where
  creation : String
  runtime : String

/-- `CandidateVerification`. -/
structure CandidateVerification (A : Type) where
  candidate : CandidateArtifact A
  creation : Option VerificationMatchDetails
  runtime : Option VerificationMatchDetails
  blueprint : Bool

instance [Inhabited A] : Inhabited (CandidateVerification A) :=
  ⟨⟨default, none, none, false⟩⟩

/-! ## The code on the chain -/

/-- Code that may be missing. -/
def optionalBytecode (value : String) : Except String (List Byte) :=
  if Texts.trimSpace value = "" then .ok [] else decodeBytecode value

/-- `Blueprint`. -/
structure Blueprint where
  version : Nat
  data : List Byte
  initcode : List Byte
deriving DecidableEq, Repr

/-- `ParseBlueprint`: `0xfe71`, a byte with the version and the number of length bytes,
    the length of the data, the data, and the init code. -/
def parseBlueprint : List Byte → Except VerifyError (Option Blueprint)
  | first :: second :: preamble =>
    if first.val ≠ 254 ∨ second.val ≠ 113 then .ok none
    else
      match preamble with
      | [] => .error (.other "ERC-5202 preamble is truncated")
      | versionByte :: rest => do
          let lengthBytes := versionByte.val % 4
          failIf (lengthBytes = 3) (.other "ERC-5202 continuation version is unsupported")
          failIf (rest.length < lengthBytes) (.other "ERC-5202 data length is truncated")
          let dataLength := bigEndian (rest.take lengthBytes)
          let sections := rest.drop lengthBytes
          failIf (dataLength > sections.length) (.other "ERC-5202 data section is truncated")
          failIf (sections.drop dataLength = []) (.other "ERC-5202 initcode is empty")
          return some ⟨versionByte.val / 4, sections.take dataLength, sections.drop dataLength⟩
  | _ => .ok none

/-- What candidates are compared with. -/
structure OnchainCode where
  creation : List Byte
  runtime : List Byte
  creationBlueprint : Option Blueprint
  runtimeBlueprint : Option Blueprint
deriving DecidableEq, Repr

/-- The first part of `VerifyCandidateArtifacts`. -/
def readOnchain (bytecodes : BytecodePair) : Except VerifyError OnchainCode := do
  let creation ← (optionalBytecode bytecodes.creation).mapError
    fun _ => .other "creation bytecode is invalid"
  let runtime ← (optionalBytecode bytecodes.runtime).mapError
    fun _ => .other "runtime bytecode is invalid"
  failIf (creation = [] ∧ runtime = []) (.other "at least one bytecode is required")
  let creationBlueprint ← parseBlueprint creation
  let runtimeBlueprint ← parseBlueprint runtime
  failIf (creation ≠ [] ∧ runtime ≠ []
    ∧ (creationBlueprint.isSome ∨ runtimeBlueprint.isSome)
      ∧ (creationBlueprint.isNone ∨ runtimeBlueprint.isNone
        ∨ creationBlueprint.map Blueprint.initcode ≠ runtimeBlueprint.map Blueprint.initcode))
    (.other "creation and runtime blueprints must contain the same initcode")
  return ⟨creation, runtime, creationBlueprint, runtimeBlueprint⟩

/-! ## One candidate -/

/-- A comparison of code on the chain with code of a candidate. -/
structure Comparison (A : Type) where
  deployed : List Byte
  compiled : List Byte
  input : CodeTransformationInput A

section Compare

variable [Inhabited A]

/-- How the creation code is compared.  The init code of a blueprint has no constructor
    arguments. -/
def OnchainCode.creationComparison (onchain : OnchainCode) (candidate : CandidateArtifact A) :
    Option (Comparison A) :=
  if onchain.creation = [] then none
  else
    match onchain.creationBlueprint with
    | some blueprint => some ⟨blueprint.initcode, candidate.creationBytes,
        ⟨candidate.creationAuxdata, candidate.creationLinks, .empty, candidate.abi, false⟩⟩
    | none => some ⟨onchain.creation, candidate.creationBytes,
        ⟨candidate.creationAuxdata, candidate.creationLinks, .empty, candidate.abi, true⟩⟩

/-- How the runtime code is compared.  A blueprint on the chain is init code. -/
def OnchainCode.runtimeComparison (onchain : OnchainCode) (candidate : CandidateArtifact A) :
    Option (Comparison A) :=
  if onchain.runtime = [] then none
  else
    match onchain.runtimeBlueprint with
    | some blueprint => some ⟨blueprint.initcode, candidate.creationBytes,
        ⟨candidate.creationAuxdata, candidate.creationLinks, .empty, default, false⟩⟩
    | none => some ⟨onchain.runtime, candidate.runtimeBytes,
        ⟨candidate.runtimeAuxdata, candidate.runtimeLinks, candidate.runtimeImmutables, default,
          false⟩⟩

/-- A comparison that is not made has no details. -/
def runComparison [AbiLibrary A] : Option (Comparison A) →
    Except VerifyError (Option VerificationMatchDetails)
  | none => .ok none
  | some comparison =>
    matchTransformedCode comparison.deployed comparison.compiled comparison.input

/-- The body of the loop over the candidates, up to the ranking. -/
def verifyCandidate [AbiLibrary A] (onchain : OnchainCode) (candidate : CandidateArtifact A) :
    Except VerifyError (CandidateVerification A) := do
  let creation ← runComparison (onchain.creationComparison candidate)
  let runtime ← runComparison (onchain.runtimeComparison candidate)
  return ⟨candidate, creation, runtime,
    (onchain.creation ≠ [] ∧ onchain.creationBlueprint.isSome)
      ∨ (onchain.runtime ≠ [] ∧ onchain.runtimeBlueprint.isSome)⟩

/-! ## Ranking -/

/-- `RankedCandidate`, with what the order reads. -/
structure RankedCandidate where
  fullyQualifiedName : String
  creation : Option VerificationMatchDetails
  runtime : Option VerificationMatchDetails
  hint : Bool

/-- Whether details are those of a full match. -/
def isFull (details : Option VerificationMatchDetails) : Bool :=
  details.any fun d => d.matchType = .fullMatch

/-- Full matches of both codes, of the creation code, of the runtime code, none. -/
def candidateRank (candidate : RankedCandidate) : Nat :=
  match isFull candidate.creation, isFull candidate.runtime with
  | true, true => 4
  | true, false => 3
  | false, true => 2
  | false, false => 1

/-- The comparator of `SortCandidates`. -/
def candidateLess (left right : RankedCandidate) : Prop :=
  if candidateRank left ≠ candidateRank right then candidateRank left > candidateRank right
  else if left.hint ≠ right.hint then left.hint = true
  else left.fullyQualifiedName < right.fullyQualifiedName

instance : DecidableRel candidateLess := fun left right => by
  unfold candidateLess
  infer_instance

/-- The filter of `SortCandidates`. -/
def candidateKept (requireRuntime : Bool) (candidate : RankedCandidate) : Bool :=
  if requireRuntime ∧ candidate.runtime.isNone then false
  else if candidate.creation.isNone ∧ candidate.runtime.isNone then false
  else true

/-- `SortCandidates`: a filter in place and a stable sort. -/
def sortCandidates (candidates : List RankedCandidate) (requireRuntime : Bool) :
    List RankedCandidate :=
  (Slices.filterInPlace (candidateKept requireRuntime) candidates).insertionSort
    fun left right => ¬ candidateLess right left

/-- The result as it is ranked. -/
def CandidateVerification.ranked (hint : String) (result : CandidateVerification A) :
    RankedCandidate where
  fullyQualifiedName := result.candidate.fullyQualifiedName
  creation := result.creation
  runtime := result.runtime
  hint := hint ≠ "" ∧ (hint = result.candidate.contractName
    ∨ hint = result.candidate.fullyQualifiedName)

/-- What the loop over the candidates has collected. -/
structure Collected (A : Type) where
  ranked : List RankedCandidate
  byName : GoMap String (CandidateVerification A)

/-- The body of the loop over the candidates. -/
def collectCandidate [AbiLibrary A] (onchain : OnchainCode) (hint : String)
    (collected : Collected A) (candidate : CandidateArtifact A) :
    Except VerifyError (Collected A) := do
  let result ← verifyCandidate onchain candidate
  return ⟨collected.ranked ++ [result.ranked hint],
    collected.byName.insert candidate.fullyQualifiedName result⟩

/-- `VerifyCandidateArtifacts`: compares all candidates and sorts the results. -/
def verifyCandidateArtifacts [AbiLibrary A] (candidates : List (CandidateArtifact A))
    (bytecodes : BytecodePair) (hint : String) (requireRuntime : Bool) :
    Except VerifyError (List (CandidateVerification A)) := do
  let onchain ← readOnchain bytecodes
  let collected ← candidates.foldlM (collectCandidate onchain hint) ⟨[], .empty⟩
  return (sortCandidates collected.ranked requireRuntime).map fun item =>
    (collected.byName.get? item.fullyQualifiedName).getD default

end Compare

end Verify
