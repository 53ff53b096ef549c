import Mathlib.Data.List.Perm.Subperm
import Etherview.Json
import Etherview.Texts
import Etherview.VerifyRanges

/-! # The immutable section of Vyper code

    `internal/verify/vyper_candidate.go`: `vyperImmutableLayout` walks the code layout
    that the Vyper compiler reports, a tree of JSON objects whose leaves are the
    immutables, and returns the size of their section with one reference per leaf.

    The members of an object are walked in whatever order Go walks the map, and the
    ranges are sorted by their starts in some way (`LayoutWalk`); all results hold for
    every such walk.

    * `vyperLeaf_eq_ok` says what a leaf is: three members, `type` by its exact name
      and the other two up to case.
    * `nodesOf` lists the nodes of a layout with their paths, which does not know of
      an order; no path occurs twice (`nodup_nodesOf`). -/

namespace Verify

open Json Patch Texts Transact List Option Prod

/-! ## Model -/

/-- The depth of a strict JSON value. -/
def maxStrictJSONDepth : Nat := 128

/-- `1 << 20`. -/
def maxStrictJSONNodes : Nat := 1048576

/-- A strict JSON object. -/
def decodeRawJSONObject (raw : Value) : Except VerifyError (GoMap String Value) :=
  match raw.strictObject maxStrictJSONDepth maxStrictJSONNodes with
  | some object => .ok object
  | none => .error .compilerOutputMalformed

/-- The record a leaf is decoded into. -/
structure LayoutItem where
  offset : Option Nat
  length : Nat
  type : String

/-- The fields of that record. -/
inductive LayoutField where
  | offset
  | length
  | type
deriving DecidableEq, Repr

/-- The field a member name stands for. -/
def layoutField (name : String) : Option LayoutField :=
  if namesField "offset" name then some .offset
  else if namesField "length" name then some .length
  else if namesField "type" name then some .type
  else none

/-- Decoding one field; `null` clears a pointer and leaves the other fields alone. -/
def LayoutItem.set (item : LayoutItem) : LayoutField → Value → Option LayoutItem
  | .offset, .null => some { item with offset := none }
  | .offset, .number literal => (uint64 literal).map fun n => { item with offset := some n }
  | .length, .null => some item
  | .length, .number literal => (uint64 literal).map fun n => { item with length := n }
  | .type, .null => some item
  | .type, .text s => some { item with type := s }
  | _, _ => none

/-- Decoding one member; a member that names no field is skipped. -/
def LayoutItem.read (item : Option LayoutItem) (member : String × Value) : Option LayoutItem :=
  match layoutField member.1 with
  | some field => item.bind (·.set field member.2)
  | none => item

/-- `json.Unmarshal` of the members of an object, in the order of the text. -/
def unmarshalLayoutItem (members : Members) : Option LayoutItem :=
  members.foldl LayoutItem.read (some ⟨none, 0, ""⟩)

/-- The range of a leaf. -/
def vyperLeaf (members : Members) : Except VerifyError BytecodeRange :=
  match unmarshalLayoutItem members with
  | some ⟨some offset, length, type⟩ => do
      failIf (members.length ≠ 3 ∨ type = "" ∨ length = 0 ∨ length % 32 ≠ 0)
        .compilerOutputMalformed
      failIf (offset % 32 ≠ 0 ∨ offset > maxMatcherBytecodeBytes
        ∨ length > maxMatcherBytecodeBytes - offset) .compilerOutputMalformed
      return ⟨offset, length⟩
  | _ => .error .compilerOutputMalformed

/-- The references and the ranges found so far. -/
structure LayoutState where
  refs : ImmutableReferences
  ranges : List BytecodeRange

/-- One more leaf: its range, and its place behind the runtime code under its name. -/
def LayoutState.add (runtimeSize : Nat) (s : LayoutState) (id : String) (span : BytecodeRange) :
    LayoutState :=
  ⟨s.refs.insert id [⟨(runtimeSize + span.start) % 2 ^ 64, span.length⟩],
    s.ranges ++ [span]⟩

/-- The string under `type`, if there is one. -/
def layoutType (members : Members) : Option String := (GoMap.find "type" members).bind Value.string?

/-- One round of the loop of `walkVyperLayout`; `descend` is the walk one level down. -/
def visitVyperEntry (descend : String → Value → LayoutState → Except VerifyError LayoutState)
    (runtimeSize : Nat) (parent : String) (s : LayoutState) :
    String × Value → Except VerifyError LayoutState
  | (name, value) => do
      failIf (name = "" ∨ '.' ∈ name.toList) .compilerOutputMalformed
      let id := joinName parent name
      failIf (id.utf8ByteSize > 512) .compilerOutputMalformed
      let fields ← decodeRawJSONObject value
      match layoutType fields.entries with
      | none => descend id value s
      | some _ => do
          let span ← vyperLeaf fields.entries
          let s' := s.add runtimeSize id span
          failIf (s'.refs.size > 4096) .compilerOutputMalformed
          return s'

/-- What the code leaves open: the order in which the members of an object are
    walked, by the dotted name of the object, and the sort of the ranges. -/
structure LayoutWalk where
  order : String → Members → Members
  order_perm : ∀ id members, (order id members).Perm members
  sort : List BytecodeRange → List BytecodeRange
  sort_perm : ∀ ranges, (sort ranges).Perm ranges
  sort_sorted : ∀ ranges, (sort ranges).Pairwise fun r s => r.start ≤ s.start

/-- `walkVyperLayout`, with the number of levels left: 33 at depth 0, none at a depth
    over 32. -/
def walkVyperLayout (walk : LayoutWalk) (runtimeSize : Nat) :
    Nat → String → Value → LayoutState → Except VerifyError LayoutState
  | 0, _, _, _ => .error .compilerOutputMalformed
  | levels + 1, parent, raw, s => do
      failIf (s.refs.size > 4096) .compilerOutputMalformed
      let entries ← decodeRawJSONObject raw
      failIf (entries.size > 4096) .compilerOutputMalformed
      (walk.order parent entries.entries).foldlM
        (visitVyperEntry (walkVyperLayout walk runtimeSize levels) runtimeSize parent) s

/-- The size of the sorted ranges, each of which has to start where the last ended. -/
def vyperSectionSize : Nat → List BytecodeRange → Option Nat
  | size, [] => some size
  | size, span :: rest =>
    if span.start ≠ size then none
    else vyperSectionSize ((size + span.length) % 2 ^ 64) rest

/-- The member a record with the field `code_layout` is decoded from: the last one
    that names it. -/
def codeLayout (members : Members) : Option Value :=
  ((members.filter fun m => namesField "code_layout" m.1).getLast?).map snd

/-- The walk of a code layout; without one there is nothing to walk. -/
def walkCodeLayout (walk : LayoutWalk) (runtimeBytes : Nat) :
    Option Value → Except VerifyError LayoutState
  | some code => walkVyperLayout walk runtimeBytes 33 "" code ⟨GoMap.empty, []⟩
  | none => .ok ⟨GoMap.empty, []⟩

/-- The size of the immutable section and the references into it. -/
def vyperImmutableLayout (walk : LayoutWalk) (raw : Value) (runtimeBytes : Nat) :
    Except VerifyError (Nat × ImmutableReferences) :=
  match raw with
  | .object members => do
      let s ← walkCodeLayout walk runtimeBytes (codeLayout members)
      match vyperSectionSize 0 (walk.sort s.ranges) with
      | some size => do
          failIf ((size + runtimeBytes) % 2 ^ 64 > maxMatcherBytecodeBytes) .compilerOutputMalformed
          return (size, s.refs)
      | none => .error .compilerOutputMalformed
  | _ => .error .compilerOutputMalformed

/-! ## Leaves -/

/-- What a strict object is. -/
theorem decodeRawJSONObject_eq_ok {raw : Value} {fields : GoMap String Value} :
    decodeRawJSONObject raw = .ok fields ↔ raw = .object fields.entries
        ∧ raw.strict maxStrictJSONDepth maxStrictJSONNodes = true := by
  rw [← Value.strictObject_eq_some]
  unfold decodeRawJSONObject
  cases h : raw.strictObject maxStrictJSONDepth maxStrictJSONNodes with
  | none => exact ⟨fun h => (by cases h), fun h => (by cases h)⟩
  | some object =>
    constructor
    · intro h
      cases h
      rfl
    · intro h
      cases h
      rfl

/-- A leaf: an object of a type, an offset and a length, the names of the last two up
    to case, that stands for a range of whole words within the code limit. -/
structure LeafItem (members : Members) (span : BytecodeRange) : Prop where
  fields : ∃ offsetName lengthName type offset length,
    layoutField offsetName = some .offset ∧ layoutField lengthName = some .length ∧ type ≠ ""
      ∧ uint64 offset = some span.start ∧ uint64 length = some span.length
      ∧ members.Perm
          [("type", .text type), (offsetName, .number offset), (lengthName, .number length)]
  positive : 0 < span.length
  aligned : 32 ∣ span.start ∧ 32 ∣ span.length
  bounded : span.stop ≤ maxMatcherBytecodeBytes

theorem layoutField_type : layoutField "type" = some .type := by decide +kernel

/-- Where the values of a record come from, over one field. -/
theorem LayoutItem.set_sources {item next : LayoutItem} {field : LayoutField} {value : Value}
    (h : item.set field value = some next) :
    (∀ n, next.offset = some n → item.offset = some n
        ∨ field = .offset ∧ ∃ literal, value = .number literal ∧ uint64 literal = some n)
      ∧ (next.length = item.length
        ∨ field = .length ∧ ∃ literal, value = .number literal
          ∧ uint64 literal = some next.length)
      ∧ (next.type = item.type ∨ field = .type ∧ value = .text next.type) := by
  cases field <;> cases value <;> simp only [LayoutItem.set, map_eq_some_iff,
    some.injEq, reduceCtorEq] at h
  all_goals first
    | (subst h; simp)
    | (obtain ⟨n, hn, rfl⟩ := h; simp [hn])

/-- A reading that failed stays failed. -/
theorem foldl_read_none (members : Members) : members.foldl LayoutItem.read none = none := by
  induction members with
  | nil => rfl
  | cons m rest ih =>
    rw [foldl_cons]
    have hread : LayoutItem.read none m = none := by
      unfold LayoutItem.read
      split <;> rfl
    rw [hread, ih]

variable {members : Members}

/-- Where the values of a decoded record come from. -/
theorem read_sources {start item : LayoutItem}
    (h : members.foldl LayoutItem.read (some start) = some item) :
    (∀ n, item.offset = some n → start.offset = some n ∨ ∃ name literal,
        (name, .number literal) ∈ members ∧ layoutField name = some .offset
          ∧ uint64 literal = some n)
      ∧ (item.length = start.length ∨ ∃ name literal,
        (name, .number literal) ∈ members ∧ layoutField name = some .length
          ∧ uint64 literal = some item.length)
      ∧ (item.type = start.type ∨ ∃ name,
        (name, .text item.type) ∈ members ∧ layoutField name = some .type) := by
  induction members generalizing start with
  | nil =>
    cases h
    exact ⟨fun n hn => .inl hn, .inl rfl, .inl rfl⟩
  | cons m rest ih =>
    rw [foldl_cons] at h
    -- what the rest contributes is found there, what it leaves alone is the head's
    cases hnext : LayoutItem.read (some start) m with
    | none =>
      rw [hnext, foldl_read_none] at h
      cases h
    | some next =>
      rw [hnext] at h
      obtain ⟨hoffset, hlength, htype⟩ := ih h
      obtain ⟨name, value⟩ := m
      unfold LayoutItem.read at hnext
      cases hfield : layoutField name with
      | none =>
        simp only [hfield, some.injEq] at hnext
        subst hnext
        refine ⟨fun n hn => (hoffset n hn).imp_right ?_, hlength.imp_right ?_,
          htype.imp_right ?_⟩
        · rintro ⟨a, b, hmem, hrest⟩
          exact ⟨a, b, mem_cons_of_mem _ hmem, hrest⟩
        · rintro ⟨a, b, hmem, hrest⟩
          exact ⟨a, b, mem_cons_of_mem _ hmem, hrest⟩
        · rintro ⟨a, hmem, hrest⟩
          exact ⟨a, mem_cons_of_mem _ hmem, hrest⟩
      | some field =>
        simp only [hfield] at hnext
        obtain ⟨hoffset', hlength', htype'⟩ := LayoutItem.set_sources hnext
        refine ⟨fun n hn => ?_, ?_, ?_⟩
        · rcases hoffset n hn with hn' | ⟨a, b, hmem, hrest⟩
          · rcases hoffset' n hn' with hs | ⟨rfl, literal, rfl, hlit⟩
            · exact .inl hs
            · exact .inr ⟨name, literal, mem_cons_self, hfield, hlit⟩
          · exact .inr ⟨a, b, mem_cons_of_mem _ hmem, hrest⟩
        · rcases hlength with hl | ⟨a, b, hmem, hrest⟩
          · rcases hlength' with hs | ⟨rfl, literal, rfl, hlit⟩
            · exact .inl (hl.trans hs)
            · exact .inr ⟨name, literal, mem_cons_self, hfield, hl ▸ hlit⟩
          · exact .inr ⟨a, b, mem_cons_of_mem _ hmem, hrest⟩
        · rcases htype with ht | ⟨a, hmem, hrest⟩
          · rcases htype' with hs | ⟨rfl, rfl⟩
            · exact .inl (ht.trans hs)
            · exact .inr ⟨name, ht ▸ mem_cons_self, hfield⟩
          · exact .inr ⟨a, mem_cons_of_mem _ hmem, hrest⟩

variable {span : BytecodeRange}

/-- The record decoded from the three members of a leaf, in any order. -/
theorem unmarshalLayoutItem_of_perm {offsetName lengthName type offset length : String}
    (hoffsetName : layoutField offsetName = some .offset)
    (hlengthName : layoutField lengthName = some .length)
    (hoffset : uint64 offset = some span.start) (hlength : uint64 length = some span.length)
    (hperm : members.Perm
      [("type", .text type), (offsetName, .number offset), (lengthName, .number length)]) :
    unmarshalLayoutItem members = some ⟨some span.start, span.length, type⟩ := by
  have htypeRead : ∀ z, LayoutItem.read z ("type", .text type)
      = z.map fun item => { item with type := type } := by
    intro z
    simp only [LayoutItem.read, layoutField_type]
    cases z <;> rfl
  have hoffsetRead : ∀ z, LayoutItem.read z (offsetName, .number offset)
      = z.map fun item => { item with offset := some span.start } := by
    intro z
    simp only [LayoutItem.read, hoffsetName]
    cases z <;> simp [LayoutItem.set, hoffset]
  have hlengthRead : ∀ z, LayoutItem.read z (lengthName, .number length)
      = z.map fun item => { item with length := span.length } := by
    intro z
    simp only [LayoutItem.read, hlengthName]
    cases z <;> simp [LayoutItem.set, hlength]
  unfold unmarshalLayoutItem
  rw [hperm.foldl_eq' ?_]
  · simp only [foldl_cons, foldl_nil, htypeRead, hoffsetRead, hlengthRead, map_some]
  · -- the three updates touch different fields
    intro x hx y hy z
    rw [hperm.mem_iff] at hx hy
    simp only [mem_cons, not_mem_nil, or_false] at hx hy
    rcases hx with rfl | rfl | rfl <;> rcases hy with rfl | rfl | rfl <;>
      simp only [htypeRead, hoffsetRead, hlengthRead, Option.map_map] <;> rfl

/-- The range of a leaf. -/
theorem LeafItem.vyperLeaf_eq (h : LeafItem members span) : vyperLeaf members = .ok span := by
  obtain ⟨⟨offsetName, lengthName, typeName, offsetLit, lengthLit, hfieldO, hfieldL, hname,
    hlitO, hlitL, hperm⟩, hpos, ⟨haligned, haligned'⟩, hbounded⟩ := h
  have hitem := unmarshalLayoutItem_of_perm hfieldO hfieldL hlitO hlitL hperm
  have hthree : members.length = 3 := hperm.length_eq
  unfold Region.stop at hbounded
  unfold vyperLeaf
  rw [hitem]
  refine bind_eq_ok.mpr
    ⟨(), failIf_eq_ok.mpr ?_, bind_eq_ok.mpr ⟨(), failIf_eq_ok.mpr ?_, rfl⟩⟩
  · simp only [not_or, not_not]
    exact ⟨hthree, hname, by omega, Nat.mod_eq_zero_of_dvd haligned'⟩
  · simp only [not_or, not_not]
    exact ⟨Nat.mod_eq_zero_of_dvd haligned, by omega, by omega⟩

/-- What a leaf is. -/
theorem vyperLeaf_eq_ok {type : String}
    (hnodup : (members.map Prod.fst).Nodup) (htype : layoutType members = some type) :
    vyperLeaf members = .ok span ↔ LeafItem members span := by
  constructor
  · intro h
    unfold vyperLeaf at h
    split at h
    next offset length typeName hitem =>
      obtain ⟨_, hshape, h⟩ := bind_eq_ok.mp h
      obtain ⟨_, hrange, h⟩ := bind_eq_ok.mp h
      rw [failIf_eq_ok] at hshape hrange
      have hspan := pure_eq_ok.mp h
      subst hspan
      simp only [not_or, not_not, not_lt, gt_iff_lt] at hshape hrange
      obtain ⟨hthree, hname, hzero, hlength32⟩ := hshape
      obtain ⟨hoffset32, hoffsetle, hlengthle⟩ := hrange
      obtain ⟨hoffset, hlength, hty⟩ := read_sources hitem
      obtain ⟨offsetName, offsetLit, hmemO, hfieldO, hlitO⟩ :=
        (hoffset offset rfl).resolve_left (fun h => (by cases h))
      obtain ⟨lengthName, lengthLit, hmemL, hfieldL, hlitL⟩ := hlength.resolve_left hzero
      obtain ⟨tname, hmemT, hfieldT⟩ := hty.resolve_left hname
      -- three members for three fields: there is no other one
      have hdistinct : [(tname, Value.text typeName), (offsetName, Value.number offsetLit),
          (lengthName, Value.number lengthLit)].Nodup := by
        have hOL : offsetName ≠ lengthName := by
          rintro rfl
          rw [hfieldO] at hfieldL
          cases hfieldL
        simp [hOL]
      have hsub : [(tname, Value.text typeName), (offsetName, Value.number offsetLit),
          (lengthName, Value.number lengthLit)] ⊆ members := by
        intro m hm
        simp only [mem_cons, not_mem_nil, or_false] at hm
        rcases hm with rfl | rfl | rfl
        · exact hmemT
        · exact hmemO
        · exact hmemL
      have hperm := ((subperm_of_subset hdistinct hsub).perm_of_length_le
        (le_of_eq hthree)).symm
      -- the member with the exact name is the one for the type
      have hexact : tname = "type" := by
        obtain ⟨value, hfind, -⟩ := bind_eq_some_iff.mp htype
        have hmem := hperm.mem_iff.mp ((GoMap.find_eq_some hnodup).mp hfind)
        simp only [mem_cons, not_mem_nil, or_false, Prod.mk.injEq] at hmem
        rcases hmem with ⟨heq, -⟩ | ⟨heq, -⟩ | ⟨heq, -⟩
        · exact heq.symm
        · rw [← heq, layoutField_type] at hfieldO
          cases hfieldO
        · rw [← heq, layoutField_type] at hfieldL
          cases hfieldL
      subst hexact
      exact {
        fields := ⟨offsetName, lengthName, typeName, offsetLit, lengthLit, hfieldO, hfieldL,
          hname, hlitO, hlitL, hperm⟩
        positive := pos_of_ne_zero hzero
        aligned := ⟨Nat.dvd_of_mod_eq_zero hoffset32, Nat.dvd_of_mod_eq_zero hlength32⟩
        bounded := by
          unfold Region.stop
          dsimp only
          omega }
    next => cases h
  · intro h
    exact h.vyperLeaf_eq

/-! ## The nodes of a layout -/

/-- A node of a layout below its root: the names on the way to it, and its value. -/
abbrev LayoutNode := List String × Value

/-- An object with a string under `type`. -/
def isLayoutLeaf : Value → Bool
  | .object members => (layoutType members).isSome
  | _ => false

mutual

/-- The nodes below a value. -/
def nodesBelow (path : List String) : Value → List LayoutNode
  | .object members => nodesOf path members
  | _ => []

/-- The nodes of some members and below them, other than below leaves. -/
def nodesOf (path : List String) : List (String × Value) → List LayoutNode
  | [] => []
  | (name, value) :: rest =>
    (path ++ [name], value)
      :: ((if isLayoutLeaf value then [] else nodesBelow (path ++ [name]) value)
        ++ nodesOf path rest)

end

/-- The nodes one member contributes. -/
def entryNodes (path : List String) (entry : String × Value) : List LayoutNode :=
  (path ++ [entry.1], entry.2)
    :: if isLayoutLeaf entry.2 then [] else nodesBelow (path ++ [entry.1]) entry.2

theorem nodesOf_eq_flatMap (path : List String) (members : Members) :
    nodesOf path members = members.flatMap (entryNodes path) := by
  induction members with
  | nil => rw [nodesOf, flatMap_nil]
  | cons entry rest ih =>
    obtain ⟨name, value⟩ := entry
    rw [nodesOf, flatMap_cons, ih, entryNodes, cons_append]

theorem nodesOf_perm {members members' : Members} (h : members.Perm members')
    (path : List String) : (nodesOf path members).Perm (nodesOf path members') := by
  rw [nodesOf_eq_flatMap, nodesOf_eq_flatMap]
  exact h.flatMap_right _

/-- The range of a leaf, with its path. -/
def leafRange (node : LayoutNode) : Option (List String × BytecodeRange) := match node.2 with
  | .object members =>
    if isLayoutLeaf node.2 then (vyperLeaf members).toOption.map fun span => (node.1, span)
    else none
  | _ => none

/-- The leaves among some nodes. -/
def leavesOf (nodes : List LayoutNode) : List (List String × BytecodeRange) :=
  nodes.filterMap leafRange

/-- What a node has to be: an object under plain names, either a leaf or a further
    level, within the limits. -/
structure LayoutNodeOk (node : LayoutNode) : Prop where
  names : ∀ name ∈ node.1, PlainName name
  id_size : (dotted node.1).utf8ByteSize ≤ 512
  leaf : isLayoutLeaf node.2 = true → ∃ members span, node.2 = .object members
    ∧ LeafItem members span
  inner : isLayoutLeaf node.2 = false → ∃ members, node.2 = .object members
    ∧ node.1.length ≤ 32 ∧ members.length ≤ 4096

/-! ## Paths are distinct -/

mutual

/-- A node below a value has a longer path. -/
theorem path_of_mem_nodesBelow {path : List String} :
    ∀ {value : Value} {node : LayoutNode}, node ∈ nodesBelow path value →
      ∃ name rest, node.1 = path ++ name :: rest
  | .object members, node, h => by
      obtain ⟨name, rest, -, hpath⟩ := path_of_mem_nodesOf h
      exact ⟨name, rest, hpath⟩
  | .null, _, h | .boolean _, _, h | .number _, _, h | .text _, _, h | .array _, _, h => by
      simp only [nodesBelow, not_mem_nil] at h

/-- A node of some members is under one of their names. -/
theorem path_of_mem_nodesOf {path : List String} :
    ∀ {members : List (String × Value)} {node : LayoutNode}, node ∈ nodesOf path members →
      ∃ name rest, name ∈ members.map fst ∧ node.1 = path ++ name :: rest
  | [], node, h => by
      cases h
  | (name, value) :: members, node, h => by
      rcases mem_cons.mp h with rfl | h
      · exact ⟨name, [], mem_cons_self, rfl⟩
      · rcases mem_append.mp h with h | h
        · by_cases hleaf : isLayoutLeaf value = true
          · rw [if_pos hleaf] at h
            cases h
          · rw [if_neg hleaf] at h
            obtain ⟨next, rest, hpath⟩ := path_of_mem_nodesBelow h
            refine ⟨name, next :: rest, mem_cons_self, ?_⟩
            rw [hpath, append_assoc]
            rfl
        · obtain ⟨other, rest, hmem, hpath⟩ := path_of_mem_nodesOf h
          exact ⟨other, rest, mem_cons_of_mem _ hmem, hpath⟩

end

mutual

theorem nodup_nodesBelow (path : List String) :
    ∀ {value : Value}, value.shape.unique = true → ((nodesBelow path value).map Prod.fst).Nodup
  | .object members, h => by
      rw [nodesBelow]
      exact nodup_nodesOf path h
  | .null, _ | .boolean _, _ | .number _, _ | .text _, _ | .array _, _ => by
      simp only [nodesBelow, map_nil, nodup_nil]

/-- Distinct member names make distinct paths. -/
theorem nodup_nodesOf (path : List String) :
    ∀ {members : List (String × Value)}, (shapeOfMembers members).unique = true →
      ((nodesOf path members).map fst).Nodup
  | [], _ => by
      rw [nodesOf]
      exact nodup_nil
  | (name, value) :: members, h => by
      have hfresh := (nodup_cons.mp (nodup_of_unique h)).1
      have hrest := (Bool.and_eq_true_iff.mp h).2
      have hvalue : value.shape.unique = true := (Shape.within_beside_left _ _).unique hrest
      have hmembers := nodup_nodesOf path ((Shape.within_beside_right _ _).unique hrest)
      have hbelow := nodup_nodesBelow (path ++ [name]) hvalue
      rw [nodesOf, map_cons, map_append]
      refine nodup_cons.mpr ⟨?_, nodup_append.mpr ⟨?_, hmembers, ?_⟩⟩
      · -- the path of the member itself is shorter than those below it, and the other
        -- members go through other names
        intro hmem
        rcases mem_append.mp hmem with hmem | hmem
        · obtain ⟨node, hnode, hpath⟩ := mem_map.mp hmem
          by_cases hleaf : isLayoutLeaf value = true
          · rw [if_pos hleaf] at hnode
            cases hnode
          · rw [if_neg hleaf] at hnode
            obtain ⟨next, rest, hnext⟩ := path_of_mem_nodesBelow hnode
            rw [hnext] at hpath
            have hlen := congrArg length hpath
            simp at hlen
        · obtain ⟨node, hnode, hpath⟩ := mem_map.mp hmem
          obtain ⟨other, rest, hother, hnext⟩ := path_of_mem_nodesOf hnode
          rw [hnext, append_cancel_left_eq, cons.injEq] at hpath
          exact hfresh (hpath.1 ▸ hother)
      · by_cases hleaf : isLayoutLeaf value = true
        · rw [if_pos hleaf]
          exact nodup_nil
        · rw [if_neg hleaf]
          exact hbelow
      · intro p hp q hq heq
        subst heq
        obtain ⟨node, hnode, hpath⟩ := mem_map.mp hp
        obtain ⟨node', hnode', hpath'⟩ := mem_map.mp hq
        by_cases hleaf : isLayoutLeaf value = true
        · rw [if_pos hleaf] at hnode
          cases hnode
        · rw [if_neg hleaf] at hnode
          obtain ⟨next, rest, hnext⟩ := path_of_mem_nodesBelow hnode
          obtain ⟨other, rest', hother, hnext'⟩ := path_of_mem_nodesOf hnode'
          rw [← hpath', hnext', hnext, append_assoc, append_cancel_left_eq,
            singleton_append, cons.injEq] at hpath
          exact hfresh (hpath.1 ▸ hother)

end

end Verify
