import Etherview.Hex

/-! # Bounds on the values of an ABI encoding

    `internal/abibounds/values.go`: before hostile data is decoded, `CheckValues`
    walks the values that the types of the arguments see in it.  Nothing is
    allocated; every value that is visited takes a node from a budget, and every
    leaf its bytes.

    Integer operations that can leave the range of `int` and reads of the data are
    written so that they fail there (`Fault`).  What an encoding holds is said by
    its types alone (`AbiType.valueAt`), with every offset followed.  The walk never
    fails, and what it accepts holds values within the limits
    (`check_values_within`). -/

namespace AbiBounds

open Hex Option

/-! ## Types and their shapes -/

/-- `abi.Type`, by what the walk distinguishes; `missing` is a `nil` pointer. -/
inductive AbiType where
  | missing
  | word
  | text
  | array (slice : Bool) (size : Int) (elem : AbiType)
  | tuple (elems : List AbiType)

/-- `Limits`. -/
structure Limits where
  maxDocumentBytes : Int
  maxEntries : Int
  maxArguments : Int
  maxTypeBytes : Int
  maxDepth : Int
  maxNodes : Int
  maxDataBytes : Int
  maxValueBytes : Int
  maxDynamicBytes : Int
  maxArrayElements : Int

/-- Every limit is positive; a document has two brackets at least. -/
def Limits.valid (l : Limits) : Bool :=
  l.maxDocumentBytes > 2 ∧ l.maxEntries > 0 ∧ l.maxArguments > 0 ∧ l.maxTypeBytes > 0 ∧
    l.maxDepth > 0 ∧ l.maxNodes > 0 ∧ l.maxDataBytes > 0 ∧ l.maxValueBytes > 0 ∧
    l.maxDynamicBytes > 0 ∧ l.maxArrayElements > 0

/-- `shape`: what the walk needs to know of a type. -/
inductive Shape where
  | word
  | text
  | array (slice : Bool) (size head : Int) (dynamic : Bool) (elem : Shape)
  | tuple (head : Int) (dynamic : Bool) (fields : List Shape)

/-- The bytes a value takes in the place of its parent. -/
def Shape.head : Shape → Int
  | .word | .text => 32
  | .array _ _ head _ _ => head
  | .tuple head _ _ => head

/-- A value that lies behind an offset. -/
def Shape.dynamic : Shape → Bool
  | .word => false
  | .text => true
  | .array _ _ _ dynamic _ => dynamic
  | .tuple _ dynamic _ => dynamic

/-- What must not happen. -/
inductive Fault where
  | overflow
  | outOfBounds
deriving DecidableEq, Repr

/-- `math.MaxInt`. -/
def maxInt : Int := 2 ^ 63 - 1

/-- The result of an operation on `int`. -/
def int (x : Int) : Except Fault Int :=
  if -maxInt - 1 ≤ x ∧ x ≤ maxInt then .ok x else .error .overflow

section Shapes

variable (limits : Limits)

mutual

/-- `makeShape`: the shape, and the nodes that are left. -/
def makeShape : AbiType → Int → Int → Except Fault (Option (Shape × Int))
  | .missing, _, _ => .ok none
  | .word, depth, nodes =>
    .ok (if depth > limits.maxDepth ∨ nodes ≤ 0 then none else some (.word, nodes - 1))
  | .text, depth, nodes =>
    .ok (if depth > limits.maxDepth ∨ nodes ≤ 0 then none else some (.text, nodes - 1))
  | .array slice size elem, depth, nodes =>
    if depth > limits.maxDepth ∨ nodes ≤ 0 then .ok none
    else do
      match ← makeShape elem (← int (depth + 1)) (nodes - 1) with
      | none => .ok none
      | some (s, nodes) =>
        if size < 0 ∨ size > limits.maxArrayElements then .ok none
        else if slice || s.dynamic then .ok (some (.array slice size 32 true s, nodes))
        else if s.head > limits.maxValueBytes / max 1 size then .ok none
        else .ok (some (.array slice size (← int (size * s.head)) false s, nodes))
  | .tuple elems, depth, nodes =>
    if depth > limits.maxDepth ∨ nodes ≤ 0 ∨ elems.length > limits.maxArguments then .ok none
    else do
      match ← makeFields elems (← int (depth + 1)) (nodes - 1) 0 with
      | none => .ok none
      | some (fields, total, nodes) =>
        let dynamic := fields.any Shape.dynamic
        .ok (some (.tuple (if dynamic then 32 else total) dynamic fields, nodes))

/-- The loop over the elements of a tuple, whose heads take `total` bytes so far. -/
def makeFields : List AbiType → Int → Int → Int →
    Except Fault (Option (List Shape × Int × Int))
  | [], _, nodes, total => .ok (some ([], total, nodes))
  | t :: rest, depth, nodes, total => do
    match ← makeShape t depth nodes with
    | none => .ok none
    | some (s, nodes) =>
      if s.head > limits.maxValueBytes - total then .ok none
      else match ← makeFields rest depth nodes (← int (total + s.head)) with
      | none => .ok none
      | some (fields, total, nodes) => .ok (some (s :: fields, total, nodes))

end

/-- The shapes of the arguments that are not indexed. -/
def makeArguments : List (Bool × AbiType) → Int → Except Fault (Option (List Shape))
  | [], _ => .ok (some [])
  | (true, _) :: rest, nodes => makeArguments rest nodes
  | (false, t) :: rest, nodes => do
    match ← makeShape limits t 0 nodes with
    | none => .ok none
    | some (s, nodes) => .ok ((← makeArguments rest nodes).map (s :: ·))

end Shapes

/-! ## The walk -/

/-- `valueBudget`: what is left. -/
structure Budget where
  nodes : Int
  bytes : Int

section Walk

variable (limits : Limits) (data : List Byte)

/-- `word`: the number in the word at a position, if it is at most the length of the data. -/
def word (position : Int) : Except Fault (Option Int) :=
  if position < 0 ∨ position > data.length - 32 then .ok none
  else if 0 ≤ position ∧ position + 32 ≤ data.length then
    let word := (data.drop position.toNat).take 32
    .ok (if (word.take 24).any (fun b => b.val ≠ 0) ∨
        bigEndian (word.drop 24) > data.length then none
      else some (bigEndian (word.drop 24)))
  else .error .outOfBounds

/-- `at`: the place of a value, behind its offset if it is dynamic. -/
def placeOf (s : Shape) (base position : Int) : Except Fault (Option Int) :=
  if position < 0 ∨ position > data.length - s.head then .ok none
  else if s.dynamic then do
    match ← word data position with
    | none => .ok none
    | some offset =>
      if offset > data.length - base then .ok none else .ok (some (← int (base + offset)))
  else .ok (some position)

/-- The loop over the elements of an array, from the `i`-th on. -/
def elements (visit : Int → Budget → Except Fault (Option Budget)) (elem : Shape) (base : Int) :
    Nat → Int → Budget → Except Fault (Option Budget)
  | 0, _, v => .ok (some v)
  | count + 1, i, v => do
    match ← placeOf data elem base (← int (base + (← int (i * elem.head)))) with
    | none => .ok none
    | some position =>
      match ← visit position v with
      | none => .ok none
      | some v => elements visit elem base count (i + 1) v

/-- The number of elements of an array and the position behind it. -/
def countAt (slice : Bool) (size position : Int) : Except Fault (Option (Int × Int)) :=
  if slice then do
    match ← word data position with
    | none => .ok none
    | some count => .ok (some (count, ← int (position + 32)))
  else .ok (some (size, position))

mutual

/-- `value`: what a visit leaves of the budget. -/
def value : Shape → Int → Budget → Except Fault (Option Budget)
  | .text, position, v =>
    if v.nodes ≤ 0 then .ok none
    else do
      match ← word data position with
      | none => .ok none
      | some size =>
        if size > data.length - position - 32 ∨ size > v.bytes ∨
            size > limits.maxDynamicBytes then .ok none
        else .ok (some ⟨v.nodes - 1, v.bytes - size⟩)
  | .word, position, v =>
    .ok (if v.nodes ≤ 0 ∨ position < 0 ∨ position > data.length - 32
      ∨ v.bytes < 32 then none
      else some ⟨v.nodes - 1, v.bytes - 32⟩)
  | .array slice size _ _ elem, position, v =>
    if v.nodes ≤ 0 then .ok none
    else do
      match ← countAt data slice size position with
      | none => .ok none
      | some (count, position) =>
        -- every element takes a node, and its head from the data
        if count > v.nodes - 1 ∨ count > limits.maxArrayElements ∨ position > data.length ∨
            (elem.head > 0 ∧ count > (data.length - position) / elem.head) then .ok none
        else
          elements data (fun p v => value elem p v) elem position count.toNat 0
            ⟨v.nodes - 1, v.bytes⟩
  | .tuple _ _ fields, position, v =>
    if v.nodes ≤ 0 then .ok none else tuple fields position position ⟨v.nodes - 1, v.bytes⟩

/-- `tuple`, at a cursor. -/
def tuple : List Shape → Int → Int → Budget → Except Fault (Option Budget)
  | [], _, _, v => .ok (some v)
  | s :: rest, base, cursor, v => do
    match ← placeOf data s base cursor with
    | none => .ok none
    | some position =>
      match ← value s position v with
      | none => .ok none
      | some v => tuple rest base (← int (cursor + s.head)) v

end

/-- `CheckValuesWithLimits`: whether the data is accepted. -/
def checkValuesWithLimits (arguments : List (Bool × AbiType)) : Except Fault Bool :=
  if limits.valid = false ∨ data.length > limits.maxDataBytes ∨
      arguments.length > limits.maxArguments then .ok false
  else do
    match ← makeArguments limits arguments limits.maxNodes with
    | none => .ok false
    | some shapes =>
      .ok (← tuple limits data shapes 0 0 ⟨limits.maxNodes, limits.maxValueBytes⟩).isSome

end Walk

/-! ## Values -/

/-- The values of an encoding: the payload of leaves, and what arrays and tuples hold. -/
inductive Tree where
  | leaf (bytes : Int)
  | node (children : List Tree)

mutual

/-- The number of values. -/
def Tree.nodes : Tree → Int
  | .leaf _ => 1
  | .node children => 1 + forestNodes children

/-- The number of values of some trees. -/
def forestNodes : List Tree → Int
  | [] => 0
  | t :: rest => t.nodes + forestNodes rest

end

mutual

/-- The bytes of the leaves. -/
def Tree.payload : Tree → Int
  | .leaf bytes => bytes
  | .node children => forestPayload children

/-- The bytes of the leaves of some trees. -/
def forestPayload : List Tree → Int
  | [] => 0
  | t :: rest => t.payload + forestPayload rest

end

mutual

/-- The tree has at most so many levels below its root. -/
def Tree.Within : Tree → Int → Prop
  | .leaf _, depth => 0 ≤ depth
  | .node children, depth => 0 ≤ depth ∧ ForestWithin children (depth - 1)

/-- The trees have at most so many levels below their roots. -/
def ForestWithin : List Tree → Int → Prop
  | [], _ => True
  | t :: rest, depth => t.Within depth ∧ ForestWithin rest depth

end

mutual

/-- The values of a type lie behind an offset. -/
def AbiType.dynamic : AbiType → Bool
  | .missing | .word => false
  | .text => true
  | .array slice _ elem => slice || elem.dynamic
  | .tuple elems => anyDynamic elems

/-- One of the types is dynamic. -/
def anyDynamic : List AbiType → Bool
  | [] => false
  | t :: rest => t.dynamic || anyDynamic rest

end

mutual

/-- The bytes of a value in the place of its parent: an offset, or the value itself. -/
def AbiType.headSize : AbiType → Int
  | .missing | .word | .text => 32
  | .array slice size elem => if slice || elem.dynamic then 32 else size * elem.headSize
  | .tuple elems => if anyDynamic elems then 32 else headSizes elems

/-- The bytes of some values in the place of their parent. -/
def headSizes : List AbiType → Int
  | [] => 0
  | t :: rest => t.headSize + headSizes rest

end

section Values

variable (data : List Byte)

/-- The number in the word at a position of the data. -/
def wordAt (position : Int) : Option Int :=
  if 0 ≤ position ∧ position + 32 ≤ data.length then
    some (bigEndian ((data.drop position.toNat).take 32))
  else none

/-- The place of a value: behind an offset from the place of its parent, or in it. -/
def AbiType.place (t : AbiType) (base position : Int) : Option Int :=
  if t.dynamic then (wordAt data position).map fun offset => base + offset else some position

/-- The values of one type in the elements of an array. -/
def elementsAt (valueAt : Int → Option Tree) (t : AbiType) (base : Int) :
    Nat → Int → Option (List Tree)
  | 0, _ => some []
  | count + 1, position =>
    (t.place data base position).bind fun place =>
      (valueAt place).bind fun tree =>
        (elementsAt valueAt t base count (position + t.headSize)).map (tree :: ·)

mutual

/-- The value of a type at a place of the data, with every offset followed. -/
def AbiType.valueAt : AbiType → Int → Option Tree
  | .missing, _ => none
  | .word, place =>
    if 0 ≤ place ∧ place + 32 ≤ data.length then some (.leaf 32) else none
  | .text, place =>
    (wordAt data place).bind fun size =>
      if place + 32 + size ≤ data.length then some (.leaf size) else none
  | .array true _ elem, place =>
    (wordAt data place).bind fun count =>
      (elementsAt data (fun p => elem.valueAt p) elem (place + 32) count.toNat
        (place + 32)).map .node
  | .array false size elem, place =>
    (elementsAt data (fun p => elem.valueAt p) elem place size.toNat place).map .node
  | .tuple elems, place => (fieldsAt elems place place).map .node

/-- The values of some types one behind the other. -/
def fieldsAt : List AbiType → Int → Int → Option (List Tree)
  | [], _, _ => some []
  | t :: rest, base, position =>
    (t.place data base position).bind fun place =>
      (t.valueAt place).bind fun tree =>
        (fieldsAt rest base (position + t.headSize)).map (tree :: ·)

end

end Values

/-- The types of the arguments that are encoded: those that are not indexed. -/
def encodedTypes (arguments : List (Bool × AbiType)) : List AbiType :=
  (arguments.filter fun argument => !argument.1).map Prod.snd

/-! ## Results without faults -/

/-- There is no fault, and what is returned has a property. -/
def Sound {α : Type} (P : α → Prop) (x : Except Fault (Option α)) : Prop :=
  ∃ o, x = .ok o ∧ ∀ a, o = some a → P a

section Sound

variable {α β : Type} {P : α → Prop} {Q : β → Prop}

theorem sound_none : Sound P (.ok none) := ⟨none, rfl, fun _ h => by cases h⟩

theorem sound_some {a : α} (h : P a) : Sound P (.ok (some a)) :=
  ⟨some a, rfl, fun _ hb => some.inj hb ▸ h⟩

variable {x : Except Fault (Option α)}

/-- Soundness for a weaker property. -/
theorem Sound.mono {P' : α → Prop} (h : Sound P x) (hP : ∀ a, P a → P' a) : Sound P' x := by
  obtain ⟨o, ho, h⟩ := h
  exact ⟨o, ho, fun a ha => hP a (h a ha)⟩

/-- Two sound parts, one after the other. -/
theorem Sound.bind {f : Option α → Except Fault (Option β)}
    (h : Sound P x) (hnone : f none = .ok none)
    (hsome : ∀ a, x = .ok (some a) → P a → Sound Q (f (some a))) : Sound Q (x >>= f) := by
  obtain ⟨o, rfl, hP⟩ := h
  cases o with
  | none => exact ⟨none, hnone, fun _ h => by cases h⟩
  | some a => exact hsome a rfl (hP a rfl)

/-- A number in range is computed without overflow. -/
theorem int_eq {x : Int} (hlow : 0 ≤ x) (hhigh : x ≤ maxInt) : int x = .ok x :=
  if_pos ⟨by unfold maxInt; omega, hhigh⟩

/-- A computation goes on where its number is in range. -/
theorem sound_int {x : Int} {f : Int → Except Fault (Option β)} (hlow : 0 ≤ x)
    (hhigh : x ≤ maxInt)
    (h : Sound Q (f x)) : Sound Q (int x >>= f) := by
  rw [int_eq hlow hhigh]
  exact h

end Sound

/-! ## Shapes are those of the types -/

mutual

/-- A shape of a type: its head and whether it is dynamic are the type's, sizes are not
    negative, and there are at most so many levels. -/
def AbiType.Shaped : AbiType → Shape → Int → Prop
  | .word, .word, depth => 0 ≤ depth
  | .text, .text, depth => 0 ≤ depth
  | .array slice size elem, .array slice' size' head dynamic s, depth =>
    0 ≤ depth ∧ slice' = slice ∧ size' = size ∧
      head = (AbiType.array slice size elem).headSize ∧
      dynamic = (slice || elem.dynamic) ∧ 0 ≤ head ∧ elem.Shaped s (depth - 1)
  | .tuple elems, .tuple head dynamic fields, depth =>
    0 ≤ depth ∧ head = (AbiType.tuple elems).headSize ∧ dynamic = anyDynamic elems ∧
      0 ≤ head ∧
      AllShaped elems fields (depth - 1)
  | _, _, _ => False

/-- Shapes of some types, one for each. -/
def AllShaped : List AbiType → List Shape → Int → Prop
  | [], [], _ => True
  | t :: ts, s :: ss, depth => t.Shaped s depth ∧ AllShaped ts ss depth
  | _, _, _ => False

end

section Shaped

variable {t : AbiType} {s : Shape} {depth : Int}

/-- The shape has the head size of its type. -/
theorem AbiType.Shaped.head_eq (h : t.Shaped s depth) : s.head = t.headSize := by
  cases t <;> cases s <;> simp only [AbiType.Shaped] at h
  case word.word => rfl
  case text.text => rfl
  case array.array => exact h.2.2.2.1
  case tuple.tuple => exact h.2.1

/-- The shape is dynamic iff its type is. -/
theorem AbiType.Shaped.dynamic_eq (h : t.Shaped s depth) : s.dynamic = t.dynamic := by
  cases t <;> cases s <;> simp only [AbiType.Shaped] at h
  case word.word => rfl
  case text.text => rfl
  case array.array => exact h.2.2.2.2.1
  case tuple.tuple => exact h.2.2.1

theorem AbiType.Shaped.head_nonneg (h : t.Shaped s depth) : 0 ≤ s.head := by
  cases t <;> cases s <;> simp only [AbiType.Shaped] at h
  case word.word => exact (by decide : (0 : Int) ≤ 32)
  case text.text => exact (by decide : (0 : Int) ≤ 32)
  case array.array => exact h.2.2.2.2.2.1
  case tuple.tuple => exact h.2.2.2.1

theorem shaped_word (h : AbiType.word.Shaped s depth) : s = .word ∧ 0 ≤ depth := by
  cases s <;> simp only [AbiType.Shaped] at h
  exact ⟨rfl, h⟩

theorem shaped_text (h : AbiType.text.Shaped s depth) : s = .text ∧ 0 ≤ depth := by
  cases s <;> simp only [AbiType.Shaped] at h
  exact ⟨rfl, h⟩

/-- The shape of an array. -/
theorem shaped_array {slice : Bool} {size : Int} {elem : AbiType}
    (h : (AbiType.array slice size elem).Shaped s depth) :
    ∃ head dynamic elem', s = .array slice size head dynamic elem' ∧ 0 ≤ depth ∧
      elem.Shaped elem' (depth - 1) := by
  cases s <;> simp only [AbiType.Shaped] at h
  obtain ⟨hdepth, rfl, rfl, -, -, -, helem⟩ := h
  exact ⟨_, _, _, rfl, hdepth, helem⟩

theorem shaped_tuple {elems : List AbiType} (h : (AbiType.tuple elems).Shaped s depth) :
    ∃ head dynamic fields, s = .tuple head dynamic fields ∧ 0 ≤ depth ∧
      AllShaped elems fields (depth - 1) := by
  cases s <;> simp only [AbiType.Shaped] at h
  exact ⟨_, _, _, rfl, h.1, h.2.2.2.2⟩

variable {ts : List AbiType} {fields : List Shape}

theorem allShaped_nil (h : AllShaped [] fields depth) : fields = [] := by
  cases fields with
  | nil => rfl
  | cons s rest => exact absurd h (by simp [AllShaped])

/-- The shapes of a list of types. -/
theorem allShaped_cons (h : AllShaped (t :: ts) fields depth) :
    ∃ s rest, fields = s :: rest ∧ t.Shaped s depth ∧ AllShaped ts rest depth := by
  cases fields with
  | nil => exact absurd h (by simp [AllShaped])
  | cons s rest => exact ⟨s, rest, rfl, by simpa only [AllShaped] using h⟩

/-- One of the shapes is dynamic iff one of the types is. -/
theorem AllShaped.any_dynamic (h : AllShaped ts fields depth) :
    fields.any Shape.dynamic = anyDynamic ts := by
  induction ts generalizing fields with
  | nil =>
    rw [allShaped_nil h, anyDynamic]
    rfl
  | cons t ts ih =>
    obtain ⟨s, rest, rfl, hshaped, hrest⟩ := allShaped_cons h
    rw [List.any_cons, anyDynamic, hshaped.dynamic_eq, ih hrest]

end Shaped

section Make

variable {limits : Limits} (hlimits : limits.maxNodes ≤ maxInt
  ∧ limits.maxValueBytes ≤ maxInt)

include hlimits

mutual

/-- **A shape that is made is one of its type**, and it takes a node at least. -/
theorem makeShape_sound : ∀ (t : AbiType) (depth nodes : Int), 0 ≤ depth →
    depth + nodes ≤ limits.maxNodes →
    Sound (fun r => r.2 < nodes ∧ t.Shaped r.1 (limits.maxDepth - depth))
      (makeShape limits t depth nodes)
  | .missing, _, _ => fun _ _ => sound_none
  | .word, depth, nodes => by
    intro hdepth hroom
    rw [makeShape]
    split
    · exact sound_none
    · exact sound_some ⟨by omega, by rw [AbiType.Shaped]; omega⟩
  | .text, depth, nodes => by
    intro hdepth hroom
    rw [makeShape]
    split
    · exact sound_none
    · exact sound_some ⟨by omega, by rw [AbiType.Shaped]; omega⟩
  | .array slice size elem, depth, nodes => by
    intro hdepth hroom
    rw [makeShape]
    split
    · exact sound_none
    · refine sound_int (by omega) (by omega) ?_
      refine (makeShape_sound elem (depth + 1) (nodes - 1) (by omega) (by omega)).bind rfl ?_
      rintro ⟨s, left⟩ - ⟨hleft, hshaped⟩
      dsimp only at hleft hshaped ⊢
      have hhead := hshaped.head_nonneg
      have hdeeper : limits.maxDepth - (depth + 1) = limits.maxDepth - depth - 1 := by omega
      rw [hdeeper] at hshaped
      split
      · exact sound_none
      · rw [hshaped.dynamic_eq]
        by_cases hdynamic : (slice || elem.dynamic) = true
        · rw [if_pos hdynamic]
          refine sound_some ⟨by omega, ?_⟩
          rw [AbiType.Shaped, AbiType.headSize, if_pos hdynamic]
          exact ⟨by omega, rfl, rfl, rfl, hdynamic.symm, by decide, hshaped⟩
        · rw [if_neg hdynamic]
          split
          · exact sound_none
          · -- the head of the array is at most the bytes of all values
            have hproduct : size * s.head ≤ limits.maxValueBytes := calc
              size * s.head ≤ max 1 size * s.head :=
                Int.mul_le_mul_of_nonneg_right (by omega) hhead
              _ = s.head * max 1 size := Int.mul_comm _ _
              _ ≤ limits.maxValueBytes := (Int.le_ediv_iff_mul_le (by omega)).mp (by omega)
            have hnonneg : 0 ≤ size * s.head := Int.mul_nonneg (by omega) hhead
            refine sound_int hnonneg (by omega) (sound_some ⟨by omega, ?_⟩)
            rw [AbiType.Shaped, AbiType.headSize, if_neg hdynamic, ← hshaped.head_eq]
            exact ⟨by omega, rfl, rfl, rfl, ((Bool.not_eq_true _).mp hdynamic).symm, hnonneg,
              hshaped⟩
  | .tuple elems, depth, nodes => by
    intro hdepth hroom
    rw [makeShape]
    split
    · exact sound_none
    · refine sound_int (by omega) (by omega) ?_
      refine (makeFields_sound elems (depth + 1) (nodes - 1) 0 (by omega) (by omega)
        (by omega)).bind rfl ?_
      rintro ⟨fields, total, left⟩ - ⟨hleft, htotal, hnonneg, hshaped⟩
      dsimp only at hleft htotal hnonneg hshaped ⊢
      have hdeeper : limits.maxDepth - (depth + 1) = limits.maxDepth - depth - 1 := by omega
      rw [hdeeper] at hshaped
      refine sound_some ⟨(by omega : left < nodes), ?_⟩
      rw [hshaped.any_dynamic, AbiType.Shaped, AbiType.headSize, htotal, Int.zero_add]
      refine ⟨by omega, rfl, rfl, ?_, hshaped⟩
      split <;> omega

/-- The shapes of the elements of a tuple, and the bytes of their heads. -/
theorem makeFields_sound : ∀ (ts : List AbiType) (depth nodes total : Int), 0 ≤ depth →
    depth + nodes ≤ limits.maxNodes → 0 ≤ total →
    Sound (fun r => r.2.2 ≤ nodes ∧ r.2.1 = total + headSizes ts ∧ 0 ≤ headSizes ts ∧
        AllShaped ts r.1 (limits.maxDepth - depth))
      (makeFields limits ts depth nodes total)
  | [], _, _, _ => by
    intro hdepth hroom htotal
    rw [makeFields]
    exact sound_some ⟨le_rfl, by rw [headSizes, Int.add_zero], by rw [headSizes],
      by rw [AllShaped]; trivial⟩
  | t :: rest, depth, nodes, total => by
    intro hdepth hroom htotal
    rw [makeFields]
    refine (makeShape_sound t depth nodes hdepth hroom).bind rfl ?_
    rintro ⟨s, left⟩ - ⟨hleft, hshaped⟩
    dsimp only at hleft hshaped ⊢
    have hhead := hshaped.head_nonneg
    split
    · exact sound_none
    · refine sound_int (by omega) (by omega) ?_
      refine (makeFields_sound rest depth left (total + s.head) hdepth (by omega)
        (by omega)).bind rfl ?_
      rintro ⟨fields, total', left'⟩ - ⟨hleft', htotal', hnonneg, hfields⟩
      dsimp only at hleft' htotal' ⊢
      have heq := hshaped.head_eq
      refine sound_some ⟨(by omega : left' ≤ nodes), ?_, ?_, ?_⟩
      · rw [headSizes]
        show total' = _
        omega
      · rw [headSizes]
        omega
      · rw [AllShaped]
        exact ⟨hshaped, hfields⟩

end

end Make

/-! ## The walk stays in the data and counts the values -/

section Run

variable {limits : Limits} {data : List Byte} (hdata : (data.length : Int) ≤ maxInt)

/-- What a visit leaves of a budget, beside the values it has seen. -/
def Counted (v left : Budget) (nodes payload : Int) : Prop :=
  nodes + left.nodes = v.nodes ∧ payload + left.bytes = v.bytes ∧ 0 ≤ left.nodes
    ∧ 0 ≤ left.bytes

variable {v : Budget}

/-- A leaf takes one node and its bytes. -/
theorem counted_leaf {bytes : Int} (hnodes : 0 < v.nodes) (hbytes : bytes ≤ v.bytes) :
    Counted v ⟨v.nodes - 1, v.bytes - bytes⟩ (Tree.leaf bytes).nodes
      (Tree.leaf bytes).payload := by
  rw [Tree.nodes, Tree.payload]
  simp only [Counted]
  omega

variable {left : Budget} {ts : List Tree}

/-- A node takes itself and its children. -/
theorem counted_node
    (h : Counted ⟨v.nodes - 1, v.bytes⟩ left (forestNodes ts) (forestPayload ts)) :
    Counted v left (Tree.node ts).nodes (Tree.node ts).payload := by
  rw [Tree.nodes, Tree.payload]
  simp only [Counted] at h ⊢
  omega

theorem counted_nil (hnodes : 0 ≤ v.nodes) (hbytes : 0 ≤ v.bytes) :
    Counted v v (forestNodes []) (forestPayload []) := by
  rw [forestNodes, forestPayload]
  exact ⟨Int.zero_add _, Int.zero_add _, hnodes, hbytes⟩

theorem Counted.cons {w : Budget} {t : Tree} (h : Counted v w t.nodes t.payload)
    (hrest : Counted w left (forestNodes ts) (forestPayload ts)) :
    Counted v left (forestNodes (t :: ts)) (forestPayload (t :: ts)) := by
  rw [forestNodes, forestPayload]
  simp only [Counted] at h hrest ⊢
  omega

/-- **A word that is read is the number at its place.** -/
theorem word_sound (position : Int) :
    Sound (fun n : Int => wordAt data position = some n ∧ 0 ≤ n ∧ n ≤ data.length ∧
      0 ≤ position ∧ position + 32 ≤ data.length) (word data position) := by
  rw [word]
  split
  · exact sound_none
  · have hrange : 0 ≤ position ∧ position + 32 ≤ data.length := by omega
    rw [if_pos hrange]
    dsimp only
    split
    · exact sound_none
    · case isFalse hword =>
      obtain ⟨hzero, hsmall⟩ := not_or.mp hword
      refine sound_some ⟨?_, by omega, by omega, hrange⟩
      -- the upper bytes are zero, so that the lower ones are the number
      have hupper : bigEndian (((data.drop position.toNat).take 32).take 24) = 0 := by
        refine bigEndian_eq_zero.mpr fun b hb => ?_
        by_contra hne
        exact hzero (List.any_eq_true.mpr ⟨b, hb, decide_eq_true hne⟩)
      rw [wordAt, if_pos hrange]
      conv_lhs => rw [← List.take_append_drop 24 ((data.drop position.toNat).take 32)]
      rw [bigEndian_append, hupper, Nat.zero_mul, Nat.zero_add]

include hdata

variable {base position : Int}

/-- The place of a value is the one of its type, and it lies in the data. -/
theorem placeOf_sound {t : AbiType} {s : Shape} {depth : Int} (hshaped : t.Shaped s depth)
    (hbase : 0 ≤ base) :
    Sound (fun p : Int => t.place data base position = some p ∧ 0 ≤ p ∧ p ≤ data.length ∧
      position + s.head ≤ data.length) (placeOf data s base position) := by
  have hhead := hshaped.head_nonneg
  rw [placeOf, hshaped.dynamic_eq]
  split
  · exact sound_none
  · by_cases hdynamic : t.dynamic = true
    · rw [if_pos hdynamic]
      refine (word_sound position).bind rfl fun offset _ hoffset => ?_
      dsimp only
      split
      · exact sound_none
      · refine sound_int (by omega) (by omega) (sound_some ⟨?_, by omega, by omega, by omega⟩)
        rw [AbiType.place, if_pos hdynamic, hoffset.1, map_some]
    · rw [if_neg hdynamic]
      refine sound_some ⟨?_, by omega, by omega, by omega⟩
      rw [AbiType.place, if_neg hdynamic]

/-- The loop over the elements counts the elements. -/
theorem elements_sound {visit : Int → Budget → Except Fault (Option Budget)} {t : AbiType}
    {elem : Shape} {valueAt : Int → Option Tree} {depth level : Int}
    (hshaped : t.Shaped elem level) (hbase : 0 ≤ base)
    (hvisit : ∀ (p : Int) v, 0 ≤ p → p ≤ data.length → 0 ≤ v.nodes → 0 ≤ v.bytes →
      Sound (fun left => ∃ tree, valueAt p = some tree ∧
        Counted v left tree.nodes tree.payload ∧ tree.Within depth) (visit p v)) :
    ∀ (count : Nat) (i : Int) (v : Budget), 0 ≤ i →
      base + (i + count) * elem.head ≤ data.length → 0 ≤ v.nodes → 0 ≤ v.bytes →
      Sound (fun left => ∃ ts,
        elementsAt data valueAt t base count (base + i * t.headSize) = some ts ∧
        Counted v left (forestNodes ts) (forestPayload ts) ∧ ForestWithin ts depth)
        (elements data visit elem base count i v)
  | 0, _, v => by
    intro _ _ hnodes hbytes
    rw [elements]
    exact sound_some ⟨[], rfl, counted_nil hnodes hbytes, by rw [ForestWithin]; trivial⟩
  | count + 1, i, v => by
    intro hi hend hnodes hbytes
    have hhead := hshaped.head_nonneg
    have hstep : 0 ≤ i * elem.head := Int.mul_nonneg hi hhead
    have hlast : i * elem.head ≤ (i + (count + 1 : Nat)) * elem.head :=
      Int.mul_le_mul_of_nonneg_right (by omega) hhead
    rw [elements]
    refine sound_int hstep (by omega) (sound_int (by omega) (by omega) ?_)
    refine (placeOf_sound hdata hshaped hbase).bind rfl fun p _ hplace => ?_
    refine (hvisit p v hplace.2.1 hplace.2.2.1 hnodes hbytes).bind rfl fun w _ hw => ?_
    obtain ⟨tree, htree, hcount, hdepth⟩ := hw
    have hrest : base + (i + 1 + count) * elem.head ≤ data.length := by
      rw [show i + 1 + (count : Int) = i + (count + 1 : Nat) by omega]
      exact hend
    refine (elements_sound hshaped hbase hvisit count (i + 1) w (by omega) hrest hcount.2.2.1
      hcount.2.2.2).mono fun left ⟨ts, hts, hcounts, hdepths⟩ => ?_
    refine ⟨tree :: ts, ?_, hcount.cons hcounts,
      by rw [ForestWithin]; exact ⟨hdepth, hdepths⟩⟩
    have hnext : base + i * t.headSize + t.headSize = base + (i + 1) * t.headSize := by
      rw [Int.add_mul, Int.one_mul, Int.add_assoc]
    rw [elementsAt, ← hshaped.head_eq, hplace.1, bind_some, htree, bind_some, hshaped.head_eq,
      hnext, hts, map_some]

/-- The number of elements is read, or it is the size of the type. -/
theorem countAt_sound (slice : Bool) {size : Int} (hposition : 0 ≤ position) :
    Sound (fun r : Int × Int => 0 ≤ r.2 ∧
      (slice = true → wordAt data position = some r.1 ∧ r.2 = position + 32) ∧
      (slice = false → r = (size, position))) (countAt data slice size position) := by
  cases slice with
  | false => exact sound_some ⟨hposition, by simp, fun _ => rfl⟩
  | true =>
    refine (word_sound position).bind rfl fun count _ hcount => ?_
    refine sound_int (by omega) (by omega) (sound_some ⟨by omega, fun _ => ?_, by simp⟩)
    exact ⟨hcount.1, rfl⟩

omit hdata in
/-- The elements of an array are the value of the array. -/
theorem valueAt_array {slice : Bool} {size : Int} {elem : AbiType} {r : Int × Int}
    {ts : List Tree} (hslice : slice = true → wordAt data position = some r.1
      ∧ r.2 = position + 32)
    (hfixed : slice = false → r = (size, position))
    (hts : elementsAt data (elem.valueAt data) elem r.2 r.1.toNat r.2 = some ts) :
    (AbiType.array slice size elem).valueAt data position = some (.node ts) := by
  cases slice with
  | false =>
    obtain rfl := hfixed rfl
    rw [AbiType.valueAt, hts, map_some]
  | true =>
    obtain ⟨hword, hplace⟩ := hslice rfl
    rw [hplace] at hts
    rw [AbiType.valueAt, hword, bind_some, hts, map_some]

mutual

/-- **A visit has no fault and takes from the budget what the value has.** -/
theorem value_sound : ∀ (t : AbiType) (s : Shape) (depth position : Int) (v : Budget),
    t.Shaped s depth → 0 ≤ position → 0 ≤ v.nodes → 0 ≤ v.bytes →
    Sound (fun left => ∃ tree, t.valueAt data position = some tree ∧
      Counted v left tree.nodes tree.payload ∧ tree.Within depth) (value limits data s position v)
  | .missing, s, _, _, _ => fun hshaped => by
    cases s <;> simp only [AbiType.Shaped] at hshaped
  | .word, s, depth, position, v => by
    intro hshaped hposition hnodes hbytes
    obtain ⟨rfl, hdepth⟩ := shaped_word hshaped
    rw [value]
    split
    · exact sound_none
    · refine sound_some ⟨.leaf 32, ?_, counted_leaf (by omega) (by omega),
        by rw [Tree.Within]; exact hdepth⟩
      rw [AbiType.valueAt, if_pos (by omega)]
  | .text, s, depth, position, v => by
    intro hshaped _ hnodes hbytes
    obtain ⟨rfl, hdepth⟩ := shaped_text hshaped
    rw [value]
    split
    · exact sound_none
    · refine (word_sound position).bind rfl fun size _ hsize => ?_
      dsimp only
      split
      · exact sound_none
      · refine sound_some ⟨.leaf size, ?_, counted_leaf (by omega) (by omega),
          by rw [Tree.Within]; exact hdepth⟩
        rw [AbiType.valueAt, hsize.1, bind_some, if_pos (by omega)]
  | .array slice size elem, _, depth, position, v => by
    intro hshaped hposition hnodes hbytes
    obtain ⟨head, dynamic, s, rfl, hdepth, helem⟩ := shaped_array hshaped
    have hhead := helem.head_nonneg
    rw [value]
    split
    · exact sound_none
    · refine (countAt_sound hdata slice hposition).bind rfl ?_
      rintro ⟨count, base⟩ - ⟨hbase, hslice, hfixed⟩
      dsimp only at hbase ⊢
      split
      · exact sound_none
      · -- the elements lie in the data
        have hend : base + (0 + count.toNat) * s.head ≤ data.length := by
          rcases hhead.eq_or_lt with hzero | hpos
          · rw [← hzero, Int.mul_zero]
            omega
          · have hquotient : 0 ≤ (data.length - base) / s.head :=
              Int.ediv_nonneg (by omega) hhead
            have := (Int.le_ediv_iff_mul_le hpos).mp
              (by omega : (0 + count.toNat : Int) ≤ (data.length - base) / s.head)
            omega
        refine (elements_sound hdata helem hbase
          (fun p w hp _ => value_sound elem s (depth - 1) p w helem hp) count.toNat 0
          ⟨v.nodes - 1, v.bytes⟩ (Int.le_refl 0) hend
            (by omega : 0 ≤ v.nodes - 1) hbytes).mono
          fun left ⟨ts, hts, hcounts, hdepths⟩ => ?_
        rw [Int.zero_mul, Int.add_zero] at hts
        exact ⟨.node ts, valueAt_array hslice hfixed hts, counted_node hcounts,
          by rw [Tree.Within]; exact ⟨hdepth, hdepths⟩⟩
  | .tuple elems, _, depth, position, v => by
    intro hshaped hposition hnodes hbytes
    obtain ⟨head, dynamic, fields, rfl, hdepth, hfields⟩ := shaped_tuple hshaped
    rw [value]
    split
    · exact sound_none
    · refine (tuple_sound elems fields (depth - 1) position position ⟨v.nodes - 1, v.bytes⟩
        hfields hposition hposition (by omega : 0 ≤ v.nodes - 1) hbytes).mono
        fun left ⟨ts, hts, hcounts, hdepths⟩ => ?_
      exact ⟨.node ts, by rw [AbiType.valueAt, hts, map_some], counted_node hcounts,
        by rw [Tree.Within]; exact ⟨hdepth, hdepths⟩⟩

/-- The loop over the fields of a tuple counts the fields. -/
theorem tuple_sound : ∀ (ts : List AbiType) (fields : List Shape) (depth base cursor : Int)
    (v : Budget), AllShaped ts fields depth → 0 ≤ base → 0 ≤ cursor → 0 ≤ v.nodes →
    0 ≤ v.bytes →
    Sound (fun left => ∃ trees, fieldsAt data ts base cursor = some trees ∧
      Counted v left (forestNodes trees) (forestPayload trees) ∧ ForestWithin trees depth)
      (tuple limits data fields base cursor v)
  | [], _, depth, base, cursor, v => by
    intro hshaped _ _ hnodes hbytes
    obtain rfl := allShaped_nil hshaped
    rw [tuple]
    exact sound_some ⟨[], by rw [fieldsAt], counted_nil hnodes hbytes,
      by rw [ForestWithin]; trivial⟩
  | t :: ts, _, depth, base, cursor, v => by
    intro hall hbase hcursor hnodes hbytes
    obtain ⟨s, rest, rfl, hshaped, hrest⟩ := allShaped_cons hall
    have hhead := hshaped.head_nonneg
    rw [tuple]
    refine (placeOf_sound hdata hshaped hbase).bind rfl fun p _ hplace => ?_
    refine (value_sound t s depth p v hshaped hplace.2.1 hnodes hbytes).bind rfl
      fun w _ hw => ?_
    obtain ⟨tree, htree, hcount, hdepth⟩ := hw
    refine sound_int (by omega) (by omega) ?_
    refine (tuple_sound ts rest depth base (cursor + s.head) w hrest hbase (by omega)
      hcount.2.2.1 hcount.2.2.2).mono fun left ⟨trees, htrees, hcounts, hdepths⟩ => ?_
    refine ⟨tree :: trees, ?_, hcount.cons hcounts,
      by rw [ForestWithin]; exact ⟨hdepth, hdepths⟩⟩
    rw [fieldsAt, hplace.1, bind_some, htree, bind_some, ← hshaped.head_eq, htrees, map_some]

end

end Run

/-- The shapes that are made are those of the arguments that are encoded. -/
theorem makeArguments_sound {limits : Limits}
    (hlimits : limits.maxNodes ≤ maxInt ∧ limits.maxValueBytes ≤ maxInt)
    (arguments : List (Bool × AbiType)) (nodes : Int) (hnodes : nodes ≤ limits.maxNodes) :
    Sound (fun shapes => AllShaped (encodedTypes arguments) shapes limits.maxDepth)
      (makeArguments limits arguments nodes) := by
  induction arguments generalizing nodes with
  | nil => exact sound_some (by rw [encodedTypes]; exact trivial)
  | cons argument rest ih =>
    obtain ⟨indexed, t⟩ := argument
    cases indexed with
    | true => exact ih nodes hnodes
    | false =>
      refine (makeShape_sound hlimits t 0 nodes (Int.le_refl 0) (by omega)).bind rfl ?_
      rintro ⟨s, left⟩ - ⟨hleft, hshaped⟩
      obtain ⟨o, ho, hshapes⟩ := ih left (by omega)
      refine ⟨o.map (s :: ·), by simp only [ho]; rfl, fun shapes h => ?_⟩
      obtain ⟨others, hothers, rfl⟩ := map_eq_some_iff.mp h
      rw [Int.sub_zero] at hshaped
      exact ⟨hshaped, hshapes others hothers⟩

/-- **The walk of any data ends without a fault, and what it accepts holds the values of
    its types within the limits.**  Limits and lengths are `int`s. -/
theorem check_values_within (limits : Limits) (arguments : List (Bool × AbiType))
    (data : List Byte) (hlimits : limits.maxNodes ≤ maxInt ∧ limits.maxValueBytes ≤ maxInt)
    (hdata : (data.length : Int) ≤ maxInt) :
    ∃ accepted, checkValuesWithLimits limits data arguments = .ok accepted ∧
      (accepted = true → ∃ ts, fieldsAt data (encodedTypes arguments) 0 0 = some ts ∧
        forestNodes ts ≤ limits.maxNodes ∧ ForestWithin ts limits.maxDepth ∧
        forestPayload ts ≤ limits.maxValueBytes) := by
  rw [checkValuesWithLimits]
  split
  · exact ⟨false, rfl, fun h => by cases h⟩
  · case isFalse hvalid =>
    have hpositive : 0 ≤ limits.maxNodes ∧ 0 ≤ limits.maxValueBytes := by
      have : limits.valid = true := by simpa using (not_or.mp hvalid).1
      simp only [Limits.valid, decide_eq_true_eq] at this
      omega
    obtain ⟨o, ho, hshapes⟩ := makeArguments_sound hlimits arguments limits.maxNodes le_rfl
    rw [ho]
    cases o with
    | none => exact ⟨false, rfl, fun h => by cases h⟩
    | some shapes =>
      obtain ⟨r, hr, hcounted⟩ := @tuple_sound limits data hdata (encodedTypes arguments) shapes
        limits.maxDepth 0 0 ⟨limits.maxNodes, limits.maxValueBytes⟩ (hshapes shapes rfl)
        (Int.le_refl 0) (Int.le_refl 0) hpositive.1 hpositive.2
      refine ⟨r.isSome, by simp only [bind, Except.bind, hr], fun haccepted => ?_⟩
      obtain ⟨left, rfl⟩ := isSome_iff_exists.mp haccepted
      obtain ⟨ts, hts, hcount, hdepth⟩ := hcounted left rfl
      simp only [Counted] at hcount
      exact ⟨ts, hts, by omega, hdepth, by omega⟩

/-- `DefaultLimits`. -/
def defaultLimits : Limits :=
  ⟨16777216, 1024, 16384, 256, 16, 16384, 16777216, 1048576, 1048576, 16384⟩

/-- A number in a word. -/
def wordOf (n : Nat) : List Byte := List.replicate 31 (Fin.ofNat 256 0) ++ [Fin.ofNat 256 n]

/-- An array of two arrays that lie at one offset, with one number. -/
def sharedOffsets : List Byte :=
  wordOf 32 ++ wordOf 2 ++ wordOf 64 ++ wordOf 64 ++ wordOf 1 ++ wordOf 7

/-- The array at the shared offset is counted at each visit. -/
theorem shared_offsets_within :
    checkValuesWithLimits defaultLimits sharedOffsets
      [(false, .array true 0 (.array true 0 .word))] = .ok true
    ∧ ∃ ts, fieldsAt sharedOffsets [.array true 0 (.array true 0 .word)] 0 0 = some ts
      ∧ forestNodes ts = 5 ∧ forestPayload ts = 64 ∧ forestNodes ts ≤ defaultLimits.maxNodes
      ∧ ForestWithin ts defaultLimits.maxDepth := by
  have hrun : checkValuesWithLimits defaultLimits sharedOffsets
      [(false, .array true 0 (.array true 0 .word))] = .ok true := by decide +kernel
  have hcount : ((fieldsAt sharedOffsets [.array true 0 (.array true 0 .word)] 0 0).map
      fun ts => decide (forestNodes ts = 5 ∧ forestPayload ts = 64)) = some true := by
    decide +kernel
  obtain ⟨accepted, h, hwithin⟩ := check_values_within defaultLimits
    [(false, .array true 0 (.array true 0 .word))] sharedOffsets (by decide)
    (by decide +kernel)
  cases hrun.symm.trans h
  obtain ⟨ts, hts, hnodes, hdepth, -⟩ := hwithin rfl
  have htypes : encodedTypes [(false, .array true 0 (.array true 0 .word))]
      = [.array true 0 (.array true 0 .word)] := rfl
  rw [htypes] at hts
  rw [hts] at hcount
  obtain ⟨hnodes', hpayload⟩ := of_decide_eq_true (some.inj hcount)
  exact ⟨hrun, ts, hts, hnodes', hpayload, hnodes, hdepth⟩

end AbiBounds
