import Etherview.GoMap
import Mathlib

/-! # JSON values

    A value keeps its numbers as literals and the members of an object in the order
    of the text.  What a validator with budgets looks at is computed in one pass: how
    deep arrays and objects nest, how many values and member names there are, and
    whether some object has a name twice (`Value.shape`).  A value within its budgets
    has only members within them (`Value.strict_member`), so a reader that validates
    every value it descends into rejects nothing that it accepted at the root.

    A decoder into a record looks a member name up without regard to case
    (`namesField`). -/

namespace Json

open List

/-- A JSON value. -/
inductive Value where
  | null
  | boolean (b : Bool)
  | number (literal : String)
  | text (s : String)
  | array (items : List Value)
  | object (members : List (String × Value))

/-- The members of an object in the order of the text. -/
abbrev Members := List (String × Value)

/-! ## Budgets -/

/-- What a validator measures: the nesting of arrays and objects, the number of
    values and names, and whether the names of every object are distinct. -/
structure Shape where
  depth : Nat
  nodes : Nat
  unique : Bool

namespace Shape

/-- Nothing. -/
def none : Shape := ⟨0, 0, true⟩

/-- One value behind another. -/
def beside (s t : Shape) : Shape :=
  ⟨max s.depth t.depth, s.nodes + t.nodes, s.unique && t.unique⟩

/-- An array or object around its contents. -/
def nest (s : Shape) : Shape := ⟨s.depth + 1, s.nodes + 1, s.unique⟩

/-- Every measure of `s` is within that of `t`. -/
structure Within (s t : Shape) : Prop where
  depth : s.depth ≤ t.depth
  nodes : s.nodes ≤ t.nodes
  unique : t.unique = true → s.unique = true

theorem Within.trans {s t u : Shape} (h : s.Within t) (h' : t.Within u) : s.Within u :=
  ⟨le_trans h.depth h'.depth, le_trans h.nodes h'.nodes, fun hu => h.unique (h'.unique hu)⟩

theorem within_beside_left (s t : Shape) : s.Within (s.beside t) :=
  ⟨Nat.le_max_left _ _, Nat.le_add_right _ _, fun h => (Bool.and_eq_true_iff.mp h).1⟩

/-- The other shape is within the two of them. -/
theorem within_beside_right (s t : Shape) : t.Within (s.beside t) :=
  ⟨Nat.le_max_right _ _, Nat.le_add_left _ _, fun h => (Bool.and_eq_true_iff.mp h).2⟩

theorem within_nest (s : Shape) : s.Within s.nest := ⟨Nat.le_succ _, Nat.le_succ _, id⟩

end Shape

/-- A name occurs in front of no member of the same name. -/
def freshName (name : String) (rest : Members) : Bool := !(rest.map Prod.fst).contains name

mutual

/-- The measures of a value. -/
def Value.shape : Value → Shape
  | .array items => (shapeOfItems items).nest
  | .object members => (shapeOfMembers members).nest
  | _ => ⟨0, 1, true⟩

/-- The measures of the items of an array. -/
def shapeOfItems : List Value → Shape
  | [] => Shape.none
  | value :: rest => value.shape.beside (shapeOfItems rest)

/-- The measures of the members of an object; the name counts too. -/
def shapeOfMembers : List (String × Value) → Shape
  | [] => Shape.none
  | (name, value) :: rest =>
    Shape.beside ⟨0, 1, freshName name rest⟩ (value.shape.beside (shapeOfMembers rest))

end

/-- A validator with budgets for the nesting and for the number of values and names. -/
def Value.strict (maxDepth maxNodes : Nat) (value : Value) : Bool :=
  decide (value.shape.depth ≤ maxDepth) && decide (value.shape.nodes ≤ maxNodes)
    && value.shape.unique

variable {maxDepth maxNodes : Nat}

/-- A strict value keeps its bounds and has distinct names. -/
theorem Value.strict_iff {value : Value} :
    value.strict maxDepth maxNodes = true ↔
      value.shape.depth ≤ maxDepth ∧ value.shape.nodes ≤ maxNodes
        ∧ value.shape.unique = true := by
  unfold Value.strict
  rw [Bool.and_eq_true_iff, Bool.and_eq_true_iff, decide_eq_true_iff, decide_eq_true_iff, and_assoc]

variable {members : Members}

/-- A member is within its object. -/
theorem within_shapeOfMembers {m : String × Value} (h : m ∈ members) :
    m.2.shape.Within (shapeOfMembers members) := by
  induction members with
  | nil => cases h
  | cons first rest ih =>
    obtain ⟨name, value⟩ := first
    rw [shapeOfMembers]
    refine Shape.Within.trans ?_ (Shape.within_beside_right _ _)
    rcases mem_cons.mp h with rfl | h
    · exact Shape.within_beside_left _ _
    · exact (ih h).trans (Shape.within_beside_right _ _)

/-- **The members of a valid object are valid.** -/
theorem Value.strict_member {m : String × Value}
    (h : (Value.object members).strict maxDepth maxNodes = true) (hm : m ∈ members) :
    m.2.strict maxDepth maxNodes = true := by
  obtain ⟨hdepth, hnodes, hunique⟩ := Value.strict_iff.mp h
  have hin := (within_shapeOfMembers hm).trans (Shape.within_nest _)
  exact Value.strict_iff.mpr ⟨le_trans hin.depth hdepth, le_trans hin.nodes hnodes,
    hin.unique hunique⟩

/-- The names of a strict object are distinct. -/
theorem nodup_of_unique (h : (shapeOfMembers members).unique = true) :
    (members.map Prod.fst).Nodup := by
  induction members with
  | nil => exact nodup_nil
  | cons first rest ih =>
    obtain ⟨name, value⟩ := first
    obtain ⟨hname, hrest⟩ := Bool.and_eq_true_iff.mp h
    refine nodup_cons.mpr ⟨?_, ih ((Shape.within_beside_right _ _).unique hrest)⟩
    simpa [freshName] using hname

/-- The names of a valid object are distinct. -/
theorem Value.nodup_of_strict (h : (Value.object members).strict maxDepth maxNodes = true) :
    (members.map Prod.fst).Nodup := by
  have hunique := (Value.strict_iff.mp h).2.2
  exact nodup_of_unique hunique

/-- The map of the members of a valid object. -/
def Value.strictObject (maxDepth maxNodes : Nat) : Value → Option (GoMap String Value)
  | .object members =>
    if h : (Value.object members).strict maxDepth maxNodes = true then
      some ⟨members, Value.nodup_of_strict h⟩
    else none
  | _ => none

/-- The fields of a strict object are its members. -/
theorem Value.strictObject_eq_some {value : Value} {fields : GoMap String Value} :
    value.strictObject maxDepth maxNodes = some fields ↔
      value = .object fields.entries ∧ value.strict maxDepth maxNodes = true := by
  cases value with
  | object members =>
    rw [Value.strictObject]
    by_cases h : (Value.object members).strict maxDepth maxNodes = true
    · rw [dif_pos h]
      constructor
      · intro heq
        cases heq
        exact ⟨rfl, h⟩
      · rintro ⟨heq, -⟩
        cases fields
        cases heq
        rfl
    · rw [dif_neg h]
      exact ⟨fun heq => (by cases heq), fun heq => absurd heq.2 h⟩
  | _ => exact ⟨fun h => (by cases h), fun h => (by cases h.1)⟩

/-! ## Decoding into a record -/

/-- Case folding of a character; exact where the other side is an ASCII letter. -/
def foldChar (c : Char) : Char :=
  if c = Char.ofNat 0x17F then 's' else if c = Char.ofNat 0x212A then 'k' else c.toLower

/-- A member name is looked up among the fields of a record without regard to case. -/
def namesField (field name : String) : Bool := name.toList.map foldChar == field.toList.map foldChar

/-- An unsigned 64-bit integer: a literal of digits only. -/
def uint64 (literal : String) : Option Nat :=
  if literal.toList ≠ [] ∧ literal.toList.all Char.isDigit = true
      ∧ Nat.ofDigitChars 10 literal.toList 0 < 2 ^ 64 then
    some (Nat.ofDigitChars 10 literal.toList 0)
  else none

/-- A signed 64-bit integer: digits behind an optional sign. -/
def int64 (literal : String) : Option Int := let (negative, digits) := match literal.toList with
    | '-' :: digits => (true, digits)
    | digits => (false, digits)
  let value : Int := if negative then -(Nat.ofDigitChars 10 digits 0 : Int)
    else (Nat.ofDigitChars 10 digits 0 : Int)
  if digits ≠ [] ∧ digits.all Char.isDigit = true ∧ -2 ^ 63 ≤ value ∧ value < 2 ^ 63 then
    some value
  else none

/-- A string; `null` leaves it empty. -/
def Value.string? : Value → Option String
  | .text s => some s
  | .null => some ""
  | _ => none

end Json
