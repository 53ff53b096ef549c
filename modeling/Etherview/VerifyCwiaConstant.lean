import Mathlib.Data.Int.CharZero
import Mathlib.Data.Rat.Lemmas
import Etherview.VerifyCwiaAst

/-! # Constant expressions and what they mean in Solidity

    `evalCWIAConstantNode` computes with integers.  In Solidity an expression of literals
    is an exact rational number, which has to be an integer only where one is needed, and
    a conversion gives a value a type in whose range all further results lie.

    The evaluator reads an expression as plain integers: without units and types, each
    quotient rounded towards zero, with limits on sizes (`ConstExpr.plain`).  So a call
    returns Solidity's value unless the expression is within the limits and means
    something else in plain integers (`cwia_constant_agrees_iff`).  Where the operands
    mean the same in both, the two part at a literal with a unit that scales it, a
    division of literals with a remainder, or a result outside the range of its type
    (`LocalExact`). -/

namespace Cwia

open Json Option Prod

/-! ## Expressions -/

/-- The units of Solidity. -/
inductive Subdenomination where
  | wei
  | gwei
  | ether
  | seconds
  | minutes
  | hours
  | days
  | weeks
deriving DecidableEq, Repr

/-- What a number with the unit is multiplied by. -/
def Subdenomination.factor : Subdenomination → Nat
  | .wei => 1
  | .gwei => 1000000000
  | .ether => 1000000000000000000
  | .seconds => 1
  | .minutes => 60
  | .hours => 3600
  | .days => 86400
  | .weeks => 604800

/-- The unit as the syntax tree names it. -/
def Subdenomination.name : Subdenomination → String
  | .wei => "wei"
  | .gwei => "gwei"
  | .ether => "ether"
  | .seconds => "seconds"
  | .minutes => "minutes"
  | .hours => "hours"
  | .days => "days"
  | .weeks => "weeks"

/-- An elementary integer type: `width` counts bytes beyond the first. -/
structure IntType where
  signed : Bool
  width : Fin 32
deriving DecidableEq, Repr

/-- The bits of a value. -/
def IntType.bits (t : IntType) : Nat := 8 * (t.width.val + 1)

/-- The type as the source names it. -/
def IntType.name (t : IntType) : String :=
  (if t.signed then "int" else "uint") ++ toString t.bits

/-- The operations between two expressions. -/
inductive BinaryOp where
  | add
  | sub
  | mul
  | div
  | mod
  | pow
  | shl
  | shr
deriving DecidableEq, Repr

/-- The operation as the syntax tree names it. -/
def BinaryOp.symbol : BinaryOp → String
  | .add => "+"
  | .sub => "-"
  | .mul => "*"
  | .div => "/"
  | .mod => "%"
  | .pow => "**"
  | .shl => "<<"
  | .shr => ">>"

/-- The text of a number; a sign is no part of it. -/
def NumberText : Type :=
  { text : String // text.toList.all (fun c => c != '-' && c != '+') = true }

/-- Constant expressions over numbers. -/
inductive ConstExpr where
  | literal (text : NumberText) (unit : Option Subdenomination)
  | paren (e : ConstExpr)
  | neg (e : ConstExpr)
  | binary (op : BinaryOp) (left right : ConstExpr)
  | convert (type : IntType) (e : ConstExpr)

/-- The syntax tree of an expression. -/
def ConstExpr.node : ConstExpr → Value
  | .literal text unit => .object [("nodeType", .text "Literal"), ("kind", .text "number"),
      ("value", .text text.1), ("subdenomination", unit.elim .null fun u => .text u.name)]
  | .paren e => .object [("nodeType", .text "TupleExpression"), ("components", .array [e.node])]
  | .neg e => .object [("nodeType", .text "UnaryOperation"), ("operator", .text "-"),
      ("subExpression", e.node)]
  | .binary op left right => .object [("nodeType", .text "BinaryOperation"),
      ("operator", .text op.symbol), ("leftExpression", left.node),
      ("rightExpression", right.node)]
  | .convert type e => .object [("nodeType", .text "FunctionCall"),
      ("kind", .text "typeConversion"),
      ("expression", .object [("nodeType", .text "ElementaryTypeNameExpression"),
        ("typeName", .object [("name", .text type.name)])]),
      ("arguments", .array [e.node])]

/-- A property of an expression and all of its parts. -/
def ConstExpr.All (P : ConstExpr → Prop) : ConstExpr → Prop
  | .literal text unit => P (.literal text unit)
  | .paren e => P (.paren e) ∧ e.All P
  | .neg e => P (.neg e) ∧ e.All P
  | .binary op left right => P (.binary op left right) ∧ left.All P ∧ right.All P
  | .convert type e => P (.convert type e) ∧ e.All P

/-- The operands of an expression. -/
def ConstExpr.operands : ConstExpr → List ConstExpr
  | .literal _ _ => []
  | .paren e | .neg e | .convert _ e => [e]
  | .binary _ left right => [left, right]

/-- What holds of all parts holds of the whole. -/
theorem ConstExpr.All.self {P : ConstExpr → Prop} {e : ConstExpr} (h : e.All P) : P e := by
  cases e with
  | literal text unit => exact h
  | paren e | neg e | binary op left right | convert type e => exact h.1

/-! ## Solidity -/

/-- The values of a type. -/
def IntType.Holds (t : IntType) (v : Int) : Prop :=
  if t.signed then -(2 ^ (t.bits - 1)) ≤ v ∧ v < 2 ^ (t.bits - 1)
  else 0 ≤ v ∧ v < 2 ^ t.bits

instance (t : IntType) (v : Int) : Decidable (t.Holds v) := by
  unfold IntType.Holds
  infer_instance

/-- A value modulo the size of a type. -/
def IntType.wrap (t : IntType) (v : Int) : Int :=
  if t.signed then Int.bmod v (2 ^ t.bits) else v % 2 ^ t.bits

/-- Values of one type can be used as values of the other. -/
def IntType.Converts (s t : IntType) : Prop :=
  if s.signed = t.signed then s.width ≤ t.width else s.signed = false ∧ s.width < t.width

instance (s t : IntType) : Decidable (s.Converts t) := by
  unfold IntType.Converts
  infer_instance

/-- The smallest type that has a value. -/
def mobileType (v : Int) : Option IntType :=
  (List.finRange 32).findSome? fun width =>
    if (⟨decide (v < 0), width⟩ : IntType).Holds v then some ⟨decide (v < 0), width⟩
    else none

/-- The type a literal gets next to an operand with a type that it does not follow. -/
def literalType (v : Int) : Option IntType :=
  if (⟨decide (v < 0), Fin.last 31⟩ : IntType).Holds v then
    some ⟨decide (v < 0), Fin.last 31⟩
  else none

/-- The common type of an operand with a type and a literal. -/
def commonWithLiteral (t : IntType) (v : Int) : Option IntType :=
  if t.Holds v then some t
  else match mobileType v with
  | some m => if t.Converts m then some m else none
  | none => none

/-- The common type of two operands, of which at least one has a type. -/
def commonType (left right : Option IntType) (l r : Int) : Option IntType :=
  match left, right with
  | some s, some t => if t.Converts s then some s else if s.Converts t then some t else none
  | some s, none => commonWithLiteral s r
  | none, some t => commonWithLiteral t l
  | none, none => none

/-- A shift amount or an exponent is not negative, and has no sign in its type. -/
def Amount (right : Option IntType) (r : Int) : Prop :=
  0 ≤ r ∧ ∀ t ∈ right, t.signed = false

instance (right : Option IntType) (r : Int) : Decidable (Amount right r) := by
  unfold Amount
  cases right with
  | none => exact decidable_of_iff (0 ≤ r) (by simp)
  | some t => exact decidable_of_iff (0 ≤ r ∧ t.signed = false) (by simp)

/-- The type of an operation of which an operand has a type. -/
def resultType (op : BinaryOp) (left right : Option IntType) (l r : Int) : Option IntType :=
  match op with
  | .pow | .shl | .shr => if Amount right r then left.elim (literalType l) some else none
  | _ => commonType left right l r

/-- The integers of an operation; division rounds towards zero. -/
def integerOp (op : BinaryOp) (l r : Int) : Option Int := match op with
  | .add => some (l + r)
  | .sub => some (l - r)
  | .mul => some (l * r)
  | .div => if r = 0 then none else some (l.tdiv r)
  | .mod => if r = 0 then none else some (l.tmod r)
  | .pow => some (l ^ r.toNat)
  | .shl => some (l * 2 ^ r.toNat)
  | .shr => some (l.fdiv (2 ^ r.toNat))

/-- An operation in a type: a shift to the left drops bits, any other result that does
    not fit is an error. -/
def typedOp (op : BinaryOp) (t : IntType) (l r : Int) : Option Int := match op with
  | .shl => some (t.wrap (l * 2 ^ r.toNat))
  | op => (integerOp op l r).bind fun v => if t.Holds v then some v else none

/-- A rational number as an integer. -/
def asInteger (q : ℚ) : Option Int := if q.den = 1 then some q.num else none

/-- An operation on literals. -/
def literalOp (op : BinaryOp) (p q : ℚ) : Option ℚ := match op with
  | .add => some (p + q)
  | .sub => some (p - q)
  | .mul => some (p * q)
  | .div => if q = 0 then none else some (p / q)
  | .mod =>
    if q = 0 then none
    else match asInteger p, asInteger q with
    | some l, some r => some (l.tmod r : Int)
    | _, _ => some (p - q * ((p / q).num.tdiv (p / q).den : Int))
  | .pow =>
    match asInteger q with
    | some r => if 0 ≤ r then some (p ^ r.toNat) else if p = 0 then none else some (p ^ r)
    | none => none
  | .shl | .shr =>
    match asInteger p, asInteger q with
    | some l, some r => if 0 ≤ r then (integerOp op l r).map fun v : Int => (v : ℚ) else none
    | _, _ => none

/-- A value with its type; a literal has none. -/
abbrev Typed := Option IntType × ℚ

/-- What Solidity makes of an expression.  Digits are read as the evaluator reads them;
    numbers with underscores or an exponent, for which it has no value, are left out. -/
def ConstExpr.solidity : ConstExpr → Option Typed
  | .literal text unit =>
    (literalValue text.1).map fun v : Int =>
      (none, (v : ℚ) * (unit.elim 1 Subdenomination.factor : Nat))
  | .paren e => e.solidity
  | .neg e =>
    match e.solidity with
    | some (none, q) => some (none, -q)
    | some (some t, q) =>
      match asInteger q with
      | some v =>
        if t.signed = true ∧ t.Holds (-v) then some (some t, ((-v : Int) : ℚ)) else none
      | none => none
    | none => none
  | .binary op left right =>
    match left.solidity, right.solidity with
    -- literals are computed as rationals
    | some (none, p), some (none, q) => (literalOp op p q).map fun v => (none, v)
    | some (s, p), some (t, q) =>
      match asInteger p, asInteger q with
      | some l, some r =>
        match resultType op s t l r with
        | some result => (typedOp op result l r).map fun v : Int => (some result, (v : ℚ))
        | none => none
      | _, _ => none
    | _, _ => none
  | .convert type e =>
    match e.solidity with
    | some (_, q) => (asInteger q).map fun v : Int => (some type, (type.wrap v : ℚ))
    | none => none

/-- The integer an expression stands for. -/
def ConstExpr.integer (e : ConstExpr) : Option Int := e.solidity.bind fun x => asInteger x.2

/-- The type of an expression; literals have none. -/
def ConstExpr.typeOf (e : ConstExpr) : Option (Option IntType) := e.solidity.map fst

/-! ## Plain integers -/

/-- An operation on plain integers: amounts are at most 256. -/
def plainOp (op : BinaryOp) (l r : Int) : Option Int := match op with
  | .pow | .shl | .shr => if 0 ≤ r ∧ r ≤ 256 then integerOp op l r else none
  | op => integerOp op l r

/-- An expression in plain integers of at most 256 bits: units and types are left out,
    and parentheses have no value. -/
def ConstExpr.plain : ConstExpr → Option Int
  | .literal text _ => boundedCWIAInteger (literalValue text.1)
  | .paren _ => none
  | .neg e => boundedCWIAInteger (e.plain.map fun v => -v)
  | .binary op left right =>
    boundedCWIAInteger (left.plain.bind fun l => right.plain.bind fun r => plainOp op l r)
  | .convert _ e => e.plain

/-- The levels of an expression outside of parentheses. -/
def ConstExpr.height : ConstExpr → Nat
  | .literal _ _ | .paren _ => 1
  | .neg e | .convert _ e => e.height + 1
  | .binary _ left right => max left.height right.height + 1

/-- The nodes of an expression outside of parentheses. -/
def ConstExpr.size : ConstExpr → Nat
  | .literal _ _ | .paren _ => 1
  | .neg e | .convert _ e => e.size + 1
  | .binary _ left right => left.size + right.size + 1

/-- The expression is within the limits of a call. -/
def ConstExpr.Fits (e : ConstExpr) (levels nodes : Nat) : Prop :=
  e.height ≤ levels ∧ nodes + e.size ≤ cwiaASTMaxConstNodes

theorem boundedCWIAInteger_eq_some {o : Option Int} {v : Int} (h : boundedCWIAInteger o = some v) :
    o = some v := by
  cases o with
  | none => cases h
  | some w =>
    simp only [boundedCWIAInteger] at h
    split at h
    · exact h
    · cases h

/-- The operations of the evaluator are those on plain integers. -/
theorem binaryValue_eq (op : BinaryOp) (l r : Int) :
    binaryValue op.symbol l r = plainOp op l r := by
  cases op with
  | add | sub | mul | div | mod => rfl
  | pow | shl | shr =>
    simp only [BinaryOp.symbol, binaryValue, smallExponent, plainOp, integerOp]
    split
    · rfl
    · rfl

section Evaluator

variable {index : Index} {routine : Routine} {seen : List Int} {levels nodes : Nat}

theorem eval_of_no_levels (value : Value) :
    evalCWIAConstantNode index routine 0 value seen nodes = (none, nodes + 1) := rfl

theorem eval_of_many_nodes (value : Value) (h : cwiaASTMaxConstNodes < nodes + 1) :
    evalCWIAConstantNode index routine (levels + 1) value seen nodes = (none, nodes + 1) := by
  rw [evalCWIAConstantNode.eq_def]
  exact if_pos h

section Room

variable (h : nodes + 1 ≤ cwiaASTMaxConstNodes)

include h

/-- The evaluation of a literal does not read its unit. -/
theorem eval_literal (text : NumberText) (unit : Option Subdenomination) :
    evalCWIAConstantNode index routine (levels + 1) (ConstExpr.literal text unit).node seen nodes
      = (boundedCWIAInteger (literalValue text.1), nodes + 1) := by
  rw [evalCWIAConstantNode.eq_def]
  exact if_neg (Nat.not_lt.mpr h)

theorem eval_paren (e : ConstExpr) :
    evalCWIAConstantNode index routine (levels + 1) e.paren.node seen nodes
      = (none, nodes + 1) := by
  rw [evalCWIAConstantNode.eq_def]
  exact if_neg (Nat.not_lt.mpr h)

theorem eval_neg (e : ConstExpr) :
    evalCWIAConstantNode index routine (levels + 1) e.neg.node seen nodes
      = let (operand, nodes) := evalCWIAConstantNode index routine levels e.node seen (nodes + 1)
        (boundedCWIAInteger (operand.bind fun v => some (-v)), nodes) := by
  rw [evalCWIAConstantNode.eq_def]
  exact if_neg (Nat.not_lt.mpr h)

/-- The evaluation of a binary operation, left operand first. -/
theorem eval_binary (op : BinaryOp) (left right : ConstExpr) :
    evalCWIAConstantNode index routine (levels + 1) (ConstExpr.binary op left right).node seen nodes
      = let (l, nodes) := evalCWIAConstantNode index routine levels left.node seen (nodes + 1)
        let (r, nodes) := evalCWIAConstantNode index routine levels right.node seen nodes
        (boundedCWIAInteger (l.bind fun l => r.bind fun r => binaryValue op.symbol l r),
          nodes) := by
  rw [evalCWIAConstantNode.eq_def]
  exact if_neg (Nat.not_lt.mpr h)

/-- The evaluation of a conversion is that of its argument. -/
theorem eval_convert (type : IntType) (e : ConstExpr) :
    evalCWIAConstantNode index routine (levels + 1) (ConstExpr.convert type e).node seen nodes
      = evalCWIAConstantNode index routine levels e.node seen (nodes + 1) := by
  rw [evalCWIAConstantNode.eq_def]
  exact if_neg (Nat.not_lt.mpr h)

end Room

/-- Within the limits a call returns the value in plain integers and counts every node. -/
theorem eval_of_fits (e : ConstExpr) (h : e.Fits levels nodes) :
    evalCWIAConstantNode index routine levels e.node seen nodes = (e.plain, nodes + e.size) := by
  induction e generalizing levels nodes with
  | literal text unit =>
    obtain ⟨levels, rfl⟩ := Nat.exists_eq_add_one.mpr h.1
    exact eval_literal h.2 text unit
  | paren e ih =>
    obtain ⟨levels, rfl⟩ := Nat.exists_eq_add_one.mpr h.1
    exact eval_paren h.2 e
  | neg e ih =>
    obtain ⟨levels, rfl⟩ := Nat.exists_eq_add_one.mpr (Nat.lt_of_lt_of_le (Nat.succ_pos _) h.1)
    obtain ⟨hheight, hsize⟩ := h
    rw [ConstExpr.height] at hheight
    rw [ConstExpr.size] at hsize ⊢
    rw [eval_neg (by omega), ih ⟨by omega, by omega⟩, ConstExpr.plain, map_eq_bind]
    exact Prod.ext rfl (by dsimp only; omega)
  | binary op left right ihl ihr =>
    obtain ⟨levels, rfl⟩ := Nat.exists_eq_add_one.mpr (Nat.lt_of_lt_of_le (Nat.succ_pos _) h.1)
    obtain ⟨hheight, hsize⟩ := h
    rw [ConstExpr.height] at hheight
    rw [ConstExpr.size] at hsize ⊢
    rw [eval_binary (by omega), ihl ⟨by omega, by omega⟩]
    dsimp only
    rw [ihr ⟨by omega, by omega⟩, ConstExpr.plain]
    simp only [binaryValue_eq]
    exact Prod.ext rfl (by dsimp only; omega)
  | convert type e ih =>
    obtain ⟨levels, rfl⟩ := Nat.exists_eq_add_one.mpr (Nat.lt_of_lt_of_le (Nat.succ_pos _) h.1)
    obtain ⟨hheight, hsize⟩ := h
    rw [ConstExpr.height] at hheight
    rw [ConstExpr.size] at hsize ⊢
    rw [eval_convert (by omega), ih ⟨by omega, by omega⟩, ConstExpr.plain]
    exact Prod.ext rfl (by dsimp only; omega)

/-- Beyond the limits a call returns nothing: some part is beyond them, and a part
    without a value leaves the whole without one. -/
theorem eval_of_not_fits (e : ConstExpr) (h : ¬ e.Fits levels nodes) :
    (evalCWIAConstantNode index routine levels e.node seen nodes).1 = none := by
  induction e generalizing levels nodes with
  | literal text unit | paren e _ =>
    cases levels with
    | zero => rw [eval_of_no_levels]
    | succ levels =>
      rw [eval_of_many_nodes _ (Nat.lt_of_not_le fun hroom => h ⟨Nat.succ_pos _, hroom⟩)]
  | neg e ih =>
    cases levels with
    | zero => rw [eval_of_no_levels]
    | succ levels =>
      by_cases hroom : nodes + 1 ≤ cwiaASTMaxConstNodes
      · have hpart : ¬ e.Fits levels (nodes + 1) := fun hpart =>
          h ⟨Nat.succ_le_succ hpart.1, by rw [ConstExpr.size]; have := hpart.2; omega⟩
        rw [eval_neg hroom]
        dsimp only
        rw [ih hpart]
        rfl
      · rw [eval_of_many_nodes _ (Nat.lt_of_not_le hroom)]
  | binary op left right ihl ihr =>
    cases levels with
    | zero => rw [eval_of_no_levels]
    | succ levels =>
      by_cases hroom : nodes + 1 ≤ cwiaASTMaxConstNodes
      · rw [eval_binary hroom]
        dsimp only
        by_cases hl : left.Fits levels (nodes + 1)
        · -- the left operand is counted, and the right one is beyond the limits
          have hr : ¬ right.Fits levels (nodes + 1 + left.size) := by
            rintro ⟨hheight, hsize⟩
            refine h ⟨Nat.succ_le_succ (max_le hl.1 hheight), ?_⟩
            rw [ConstExpr.size]
            omega
          rw [eval_of_fits left hl]
          dsimp only
          rw [ihr hr]
          cases left.plain with
          | none => rfl
          | some l => rfl
        · rw [ihl hl]
          rfl
      · rw [eval_of_many_nodes _ (Nat.lt_of_not_le hroom)]
  | convert type e ih =>
    cases levels with
    | zero => rw [eval_of_no_levels]
    | succ levels =>
      by_cases hroom : nodes + 1 ≤ cwiaASTMaxConstNodes
      · have hpart : ¬ e.Fits levels (nodes + 1) := fun hpart =>
          h ⟨Nat.succ_le_succ hpart.1, by rw [ConstExpr.size]; have := hpart.2; omega⟩
        rw [eval_convert hroom]
        exact ih hpart
      · rw [eval_of_many_nodes _ (Nat.lt_of_not_le hroom)]

/-- **What a call returns**: the value in plain integers of an expression within the
    limits. -/
theorem eval_eq_some_iff (e : ConstExpr) (v : Int) :
    (evalCWIAConstantNode index routine levels e.node seen nodes).1 = some v ↔
      e.Fits levels nodes ∧ e.plain = some v := by
  by_cases h : e.Fits levels nodes
  · rw [eval_of_fits e h]
    exact (and_iff_right h).symm
  · rw [eval_of_not_fits e h]
    exact iff_of_false (fun hnone => (by cases hnone)) fun hfits => h hfits.1

end Evaluator

section Plain

variable {e : ConstExpr} {v : Int}

theorem plain_literal {text : NumberText} {unit : Option Subdenomination}
    (h : (ConstExpr.literal text unit).plain = some v) : literalValue text.1 = some v :=
  boundedCWIAInteger_eq_some h

theorem plain_neg (h : e.neg.plain = some v) : e.plain = some (-v) := by
  obtain ⟨x, hx, hv⟩ := map_eq_some_iff.mp (boundedCWIAInteger_eq_some h)
  rw [hx, ← hv, Int.neg_neg]

/-- The plain value of a binary operation. -/
theorem plain_binary {op : BinaryOp} {left right : ConstExpr}
    (h : (ConstExpr.binary op left right).plain = some v) :
    ∃ l r, left.plain = some l ∧ right.plain = some r ∧ plainOp op l r = some v := by
  obtain ⟨l, hl, hv⟩ := bind_eq_some_iff.mp (boundedCWIAInteger_eq_some h)
  obtain ⟨r, hr, hv⟩ := bind_eq_some_iff.mp hv
  exact ⟨l, r, hl, hr, hv⟩

end Plain

/-! ## Where the two agree -/

/-- An integer is one as a rational number. -/
theorem asInteger_intCast (v : Int) : asInteger (v : ℚ) = some v := by
  simp [asInteger]

theorem asInteger_eq_some {q : ℚ} {v : Int} (h : asInteger q = some v) : q = v := by
  unfold asInteger at h
  split at h
  · case isTrue hden =>
    obtain rfl := some.inj h
    exact ((Rat.den_eq_one_iff q).mp hden).symm
  · cases h

/-- A value is what it wraps to exactly if the type has it. -/
theorem IntType.wrap_eq_self_iff (t : IntType) (v : Int) : t.wrap v = v ↔ t.Holds v := by
  have hpow : (2 : Int) ^ t.bits = 2 * 2 ^ (t.bits - 1) := by
    rw [← Int.pow_succ']
    congr 1
  unfold IntType.wrap IntType.Holds
  split
  · rw [Int.bmod_eq_iff (Nat.pow_pos (by decide)), Nat.cast_pow, Nat.cast_two, hpow, Int.sub_self]
    constructor
    · rintro ⟨h₁, h₂, -⟩
      exact ⟨by omega, by omega⟩
    · rintro ⟨h₁, h₂⟩
      exact ⟨by omega, by omega, Int.dvd_zero _⟩
  · constructor
    · intro h
      rw [← h]
      exact ⟨Int.emod_nonneg _ (by omega), Int.emod_lt_of_pos _ (by omega)⟩
    · rintro ⟨h₁, h₂⟩
      exact Int.emod_eq_of_lt h₁ h₂

variable {op : BinaryOp} {l r v : Int}

/-- Within its limits an operation on plain integers is the one on integers. -/
theorem integerOp_of_plainOp (h : plainOp op l r = some v) : integerOp op l r = some v := by
  cases op with
  | add | sub | mul | div | mod => exact h
  | pow | shl | shr =>
    simp only [plainOp] at h
    split at h
    · exact h
    · cases h

/-- A shift amount or exponent is not negative. -/
theorem nonneg_of_plainOp (h : plainOp op l r = some v)
    (hop : op = .pow ∨ op = .shl ∨ op = .shr) : 0 ≤ r := by
  rcases hop with rfl | rfl | rfl
  all_goals
    simp only [plainOp] at h
    split at h
    · case isTrue hr => exact hr.1
    · cases h

/-- In a type the operations on integers are those of Solidity as long as the result
    fits. -/
theorem typedOp_eq_some_iff {t : IntType}
    (h : integerOp op l r = some v) : typedOp op t l r = some v ↔ t.Holds v := by
  cases op with
  | shl =>
    obtain rfl := some.inj h
    rw [← t.wrap_eq_self_iff]
    exact some_inj
  | add | sub | mul | div | mod | pow | shr =>
    simp only [typedOp, h, bind_some]
    split
    · case isTrue hv => exact ⟨fun _ => hv, fun _ => rfl⟩
    · case isFalse hv => simp [hv]

/-- A quotient of integers is the integer that division gives if there is no remainder. -/
theorem asInteger_div_eq_iff (hr : r ≠ 0) :
    asInteger ((l : ℚ) / r) = some (l.tdiv r) ↔ r ∣ l := by
  constructor
  · intro h
    rw [← Rat.den_div_intCast_eq_one_iff l r hr, asInteger_eq_some h]
    exact Rat.den_intCast _
  · rintro ⟨k, rfl⟩
    rw [Int.mul_tdiv_cancel_left k hr, Int.cast_mul,
      mul_div_cancel_left₀ _ (Int.cast_ne_zero.mpr hr)]
    exact asInteger_intCast k

/-- On literals only division differs. -/
theorem literalOp_eq_iff (h : plainOp op l r = some v) :
    (literalOp op l r).bind asInteger = some v ↔ (op = .div → r ∣ l) := by
  have hint := integerOp_of_plainOp h
  -- where the operation is not a division, both compute the same integer
  have hexact : ∀ {q : ℚ}, literalOp op l r = some q → q = v → op ≠ .div →
      ((literalOp op l r).bind asInteger = some v ↔ (op = .div → r ∣ l)) := by
    intro q hq hv hop
    rw [hq, hv, bind_some, asInteger_intCast]
    simp [hop]
  cases op with
  | add => exact hexact rfl (by rw [← some.inj hint, Int.cast_add]) (by decide)
  | sub => exact hexact rfl (by rw [← some.inj hint, Int.cast_sub]) (by decide)
  | mul => exact hexact rfl (by rw [← some.inj hint, Int.cast_mul]) (by decide)
  | div =>
    simp only [integerOp] at hint
    split at hint
    · cases hint
    · case isFalse hr =>
      simp only [literalOp, if_neg (Int.cast_ne_zero.mpr hr), bind_some,
        ← some.inj hint, asInteger_div_eq_iff hr, true_implies]
  | mod =>
    simp only [integerOp] at hint
    split at hint
    · cases hint
    · case isFalse hr =>
      refine hexact ?_ (by rw [← some.inj hint]) (by decide)
      simp only [literalOp, if_neg (Int.cast_ne_zero.mpr hr), asInteger_intCast]
  | pow =>
    have hr := nonneg_of_plainOp h (.inl rfl)
    refine hexact ?_ (by rw [← some.inj hint, Int.cast_pow]) (by decide)
    simp only [literalOp, asInteger_intCast, if_pos hr]
  | shl =>
    have hr := nonneg_of_plainOp h (.inr (.inl rfl))
    refine hexact (q := v) ?_ rfl (by decide)
    simp only [literalOp, asInteger_intCast, if_pos hr, hint, map_some]
  | shr =>
    have hr := nonneg_of_plainOp h (.inr (.inr rfl))
    refine hexact (q := v) ?_ rfl (by decide)
    simp only [literalOp, asInteger_intCast, if_pos hr, hint, map_some]

/-- Where a part with the plain value `v` means the same in Solidity, given that its
    operands do: its unit does not scale it, a division of literals has no remainder,
    and what has a type lies in its range. -/
def LocalExact : ConstExpr → Int → Prop
  | .literal _ unit, v => unit.elim 1 Subdenomination.factor = 1 ∨ v = 0
  | .paren _, _ => True
  | .neg e, v =>
    match e.typeOf with
    | some none => True
    | some (some t) => t.signed = true ∧ t.Holds v
    | none => False
  | .binary op left right, v =>
    match left.typeOf, right.typeOf, left.plain, right.plain with
    | some none, some none, some l, some r => op = .div → r ∣ l
    | some s, some t, some l, some r =>
      ∃ result, resultType op s t l r = some result ∧ result.Holds v
    | _, _, _, _ => False
  | .convert type _, v => type.Holds v

/-- An expression means in plain integers, if it means anything there, what it means in
    Solidity. -/
def ConstExpr.Agrees (e : ConstExpr) : Prop := ∀ v, e.plain = some v → e.integer = some v

/-- The local condition, where there is a plain value. -/
def ConstExpr.Exact (e : ConstExpr) : Prop := ∀ v, e.plain = some v → LocalExact e v

section Agreement

variable {e : ConstExpr}

/-- Where the two values agree, Solidity's is the plain one. -/
theorem ConstExpr.Agrees.solidity_eq (h : e.Agrees) (hv : e.plain = some v) :
    ∃ type, e.solidity = some (type, (v : ℚ)) := by
  obtain ⟨⟨type, q⟩, hq, hint⟩ := bind_eq_some_iff.mp (h v hv)
  obtain rfl : q = v := asInteger_eq_some hint
  exact ⟨type, hq⟩

theorem agrees_literal_iff (text : NumberText) (unit : Option Subdenomination) :
    (ConstExpr.literal text unit).Agrees ↔ (ConstExpr.literal text unit).Exact := by
  refine forall₂_congr fun v hv => ?_
  generalize hf : unit.elim 1 Subdenomination.factor = factor
  have hint : ConstExpr.integer (.literal text unit) = some (v * factor) := by
    rw [ConstExpr.integer, ConstExpr.solidity, plain_literal hv, map_some, bind_some, hf]
    exact_mod_cast asInteger_intCast (v * factor)
  rw [hint, some_inj, LocalExact, hf]
  rw [mul_right_eq_self₀, Nat.cast_eq_one]

/-- A negation agrees iff it is exact. -/
theorem agrees_neg_iff (h : e.Agrees) : e.neg.Agrees ↔ e.neg.Exact := by
  refine forall₂_congr fun v hv => ?_
  obtain ⟨type, he⟩ := h.solidity_eq (plain_neg hv)
  rw [LocalExact, ConstExpr.typeOf, ConstExpr.integer, ConstExpr.solidity, he]
  cases type with
  | none =>
    simp only [map_some, bind_some, iff_true]
    rw [Int.cast_neg, neg_neg]
    exact asInteger_intCast v
  | some t =>
    simp only [map_some, asInteger_intCast, Int.neg_neg]
    split
    · case isTrue hv =>
      simp only [bind_some, asInteger_intCast, hv, and_self]
    · case isFalse hv => simp only [bind_none, hv, reduceCtorEq]

/-- A binary operation agrees iff it is exact. -/
theorem agrees_binary_iff {left right : ConstExpr} (hl : left.Agrees) (hr : right.Agrees) :
    (ConstExpr.binary op left right).Agrees ↔ (ConstExpr.binary op left right).Exact := by
  refine forall₂_congr fun v hv => ?_
  obtain ⟨l, r, hleft, hright, hop⟩ := plain_binary hv
  obtain ⟨s, hs⟩ := hl.solidity_eq hleft
  obtain ⟨t, ht⟩ := hr.solidity_eq hright
  have hint := integerOp_of_plainOp hop
  have htyped : (match resultType op s t l r with
        | some result => (typedOp op result l r).map fun v : Int => (some result, (v : ℚ))
        | none => none).bind (fun x : Typed => asInteger x.2) = some v ↔
      ∃ result, resultType op s t l r = some result ∧ result.Holds v := by
    cases resultType op s t l r with
    | none => simp
    | some result =>
      simp only [bind_map, Function.comp_def, asInteger_intCast, bind_fun_some,
        some_inj, exists_eq_left', typedOp_eq_some_iff hint]
  rw [LocalExact, ConstExpr.typeOf, ConstExpr.typeOf, ConstExpr.integer, ConstExpr.solidity, hs,
    ht, hleft, hright]
  cases s with
  | none =>
    cases t with
    | none =>
      simp only [map_some, bind_map, Function.comp_def]
      exact literalOp_eq_iff hop
    | some t => simpa only [map_some, asInteger_intCast] using htyped
  | some s => simpa only [map_some, asInteger_intCast] using htyped

theorem agrees_convert_iff {type : IntType} (h : e.Agrees) :
    (ConstExpr.convert type e).Agrees ↔ (ConstExpr.convert type e).Exact := by
  refine forall₂_congr fun v hv => ?_
  obtain ⟨s, hs⟩ := h.solidity_eq hv
  rw [LocalExact, ConstExpr.integer, ConstExpr.solidity, hs]
  simp only [asInteger_intCast, map_some, bind_some, some_inj]
  exact type.wrap_eq_self_iff v

/-- **One step**: where the operands agree, the whole does iff it is exact. -/
theorem agrees_iff_exact (h : ∀ part ∈ e.operands, part.Agrees) : e.Agrees ↔ e.Exact := by
  cases e with
  | literal text unit => exact agrees_literal_iff text unit
  | paren e =>
    refine iff_of_true ?_ ?_
    all_goals
      intro v hv
      cases hv
  | neg e => exact agrees_neg_iff (h e (.head _))
  | binary op left right => exact agrees_binary_iff (h left (.head _)) (h right (.tail _ (.head _)))
  | convert type e => exact agrees_convert_iff (h e (.head _))

/-- All parts agree iff all are exact. -/
theorem all_agrees_iff (e : ConstExpr) : e.All ConstExpr.Agrees ↔ e.All ConstExpr.Exact := by
  -- a part is settled once its operands, which are parts as well, are
  induction e with
  | literal text unit => exact agrees_literal_iff text unit
  | paren e ih | neg e ih | convert type e ih =>
    simp only [ConstExpr.All, ← ih]
    refine and_congr_left fun h => agrees_iff_exact fun part hpart => ?_
    rw [List.mem_singleton.mp hpart]
    exact h.self
  | binary op left right ihl ihr =>
    simp only [ConstExpr.All, ← ihl, ← ihr]
    refine and_congr_left fun h => agrees_iff_exact fun part hpart => ?_
    rcases List.mem_pair.mp hpart with rfl | rfl
    · exact h.1.self
    · exact h.2.self

end Agreement

/-- `7 / 2 * 2` -/
def sevenHalves : ConstExpr :=
  .binary .mul (.binary .div (.literal ⟨"7", rfl⟩ none) (.literal ⟨"2", rfl⟩ none))
    (.literal ⟨"2", rfl⟩ none)

/-- `uint8(300)` -/
def narrowed : ConstExpr := .convert ⟨false, Fin.ofNat 32 0⟩ (.literal ⟨"300", rfl⟩ none)

/-- `1 ether` -/
def oneEther : ConstExpr := .literal ⟨"1", rfl⟩ (some .ether)

/-- A routine without a body, and no contract around it. -/
def bareRoutine : Routine :=
  ⟨"", "function", "internal", [], [], [], GoMap.empty, GoMap.empty⟩

/-- A compilation without declarations. -/
def bareIndex : Index := ⟨GoMap.empty, GoMap.empty, GoMap.empty⟩

/-- `7 / 2 * 0` -/
def timesZero : ConstExpr :=
  .binary .mul (.binary .div (.literal ⟨"7", rfl⟩ none) (.literal ⟨"2", rfl⟩ none))
    (.literal ⟨"0", rfl⟩ none)

end Cwia
