import Mathlib.Data.Int.Bitwise
import Mathlib.Data.List.Sort
import Mathlib.Data.String.Basic
import Etherview.Json
import Etherview.Texts

/-! # Reading the syntax tree of a clone with immutable arguments

    `internal/verify/cwia_ast.go`: a Solidity contract that inherits from the
    canonical helper reads its immutable arguments through calls in its routines.
    This file models the routines of a compilation (`Index`) and how constant
    expressions in them are evaluated (`evalCWIAConstant`).

    A node of the tree is a JSON object with distinct names.  Recursion in the
    source is bounded by a depth, which is the number of levels left here. -/

namespace Cwia

open Json

/-! ## Limits -/

/-- The depth of a constant expression. -/
def cwiaASTMaxConstDepth : Nat := 16

/-- The nodes of a constant expression, with those of the constants it names. -/
def cwiaASTMaxConstNodes : Nat := 64

/-! ## Nodes -/

/-- A member of a node; one that is missing reads as `nil`, like `null`. -/
def member (node : Members) (key : String) : Value := (GoMap.find key node).getD .null

/-- A member that is a text; anything else is the empty text. -/
def astString (node : Members) (key : String) : String := match member node key with
  | .text s => s
  | _ => ""

/-- A member that is an integer of 64 bits. -/
def astInt64 : Value → Option Int
  | .number literal => int64 literal
  | _ => none

/-- A list of values; anything else is none. -/
def astList : Value → List Value
  | .array items => items
  | _ => []

/-! ## The index -/

/-- `cwiaASTRoutine`, with what the search and the evaluation read. -/
structure Routine where
  name : String
  kind : String
  visibility : String
  parameters : List Value
  returns : List Value
  edges : List Int
  locals : GoMap Int Value
  mutations : GoMap Int Nat

/-- `cwiaASTIndex`, with what the search and the evaluation read. -/
structure Index where
  routines : GoMap Int Routine
  declarationInit : GoMap Int Value
  constantDecl : GoMap Int Bool

/-- The value a local variable starts with; `nil` if it is not known. -/
def Routine.localInit (routine : Routine) (reference : Int) : Value :=
  (routine.locals.get? reference).getD .null

/-- A variable that is assigned to somewhere. -/
def Routine.mutated (routine : Routine) (reference : Int) : Bool :=
  decide ((routine.mutations.get? reference).getD 0 ≠ 0)

/-! ## Constant expressions -/

/-- A number literal: hexadecimal behind `0x`, decimal otherwise. -/
def literalValue (raw : String) : Option Int := match raw.toList with
  | '0' :: 'x' :: digits => Texts.setString 16 digits
  | digits => Texts.setString 10 digits

/-- `boundedCWIAInteger`: at most 256 bits, without the sign. -/
def boundedCWIAInteger : Option Int → Option Int
  | some value => if value.natAbs < 2 ^ 256 then some value else none
  | none => none

/-- An operand of a shift or power. -/
def smallExponent (value : Int) : Option Nat :=
  if 0 ≤ value ∧ value ≤ 256 then some value.toNat else none

/-- The value of a unary operation. -/
def unaryValue (operator : String) (operand : Int) : Option Int := match operator with
  | "+" => some operand
  | "-" => some (-operand)
  | "~" => some (-operand - 1)
  | _ => none

/-- The value of a binary operation. -/
def binaryValue (operator : String) (left right : Int) : Option Int := match operator with
  | "+" => some (left + right)
  | "-" => some (left - right)
  | "*" => some (left * right)
  | "/" => if right = 0 then none else some (left.tdiv right)
  | "%" => if right = 0 then none else some (left.tmod right)
  | "<<" => (smallExponent right).map fun n => left * 2 ^ n
  | ">>" => (smallExponent right).map fun n => left.fdiv (2 ^ n)
  | "&" => some (Int.land left right)
  | "|" => some (Int.lor left right)
  | "^" => some (Int.xor left right)
  | "**" => (smallExponent right).map fun n => left ^ n
  | _ => none

/-- The value an identifier starts with, if it never changes. -/
def identifierInit (index : Index) (routine : Routine) (reference : Int) : Value :=
  match routine.localInit reference with
  | .null =>
    if (index.constantDecl.get? reference).getD false = true then
      (index.declarationInit.get? reference).getD .null
    else .null
  | initial => initial

/-- `evalCWIAConstantNode` with the number of levels left; returns the value, if there
    is one, and the number of nodes seen so far. -/
def evalCWIAConstantNode (index : Index) (routine : Routine) :
    Nat → Value → List Int → Nat → Option Int × Nat
  -- the depth is used up; the node counts all the same
  | 0, _, _, nodes => (none, nodes + 1)
  | levels + 1, value, seen, nodes =>
    if nodes + 1 > cwiaASTMaxConstNodes then (none, nodes + 1)
    else match value with
    | .object node =>
      match astString node "nodeType" with
      | "Literal" =>
        (if astString node "kind" = "number" then
          boundedCWIAInteger (literalValue (astString node "value")) else none, nodes + 1)
      | "Identifier" =>
        match astInt64 (member node "referencedDeclaration") with
        | none => (none, nodes + 1)
        | some reference =>
          -- a variable that is assigned to, or whose value is being computed already
          if routine.mutated reference ∨ reference ∈ seen then (none, nodes + 1)
          else match identifierInit index routine reference with
          | .null => (none, nodes + 1)
          | initial =>
            evalCWIAConstantNode index routine levels initial (reference :: seen) (nodes + 1)
      | "UnaryOperation" =>
        let (operand, nodes) :=
          evalCWIAConstantNode index routine levels (member node "subExpression") seen (nodes + 1)
        (boundedCWIAInteger (operand.bind (unaryValue (astString node "operator"))), nodes)
      | "BinaryOperation" =>
        let (left, nodes) :=
          evalCWIAConstantNode index routine levels (member node "leftExpression") seen (nodes + 1)
        let (right, nodes) :=
          evalCWIAConstantNode index routine levels (member node "rightExpression") seen nodes
        (boundedCWIAInteger (left.bind fun l => right.bind fun r =>
          binaryValue (astString node "operator") l r), nodes)
      | "FunctionCall" =>
        -- the type is not looked at: the value is that of the argument
        if astString node "kind" = "typeConversion" then
          match astList (member node "arguments") with
          | [argument] => evalCWIAConstantNode index routine levels argument seen (nodes + 1)
          | _ => (none, nodes + 1)
        else (none, nodes + 1)
      | _ => (none, nodes + 1)
    | _ => (none, nodes + 1)

/-- `evalCWIAConstant`. -/
def evalCWIAConstant (index : Index) (routine : Routine) (value : Value) : Option Int :=
  (evalCWIAConstantNode index routine (cwiaASTMaxConstDepth + 1) value [] 0).1

end Cwia
