import Etherview.EnrichTraceFlat
import Etherview.Texts

/-! # The agreement of the two trace normalizers

    `NormalizeTraceAPI` sorts the pending frames by trace address and links every frame to
    its parent through a map from address texts to positions.

    * `sorted_arrangement` — whatever order the frames come in, the sort restores preorder;
    * `linkFrames_places` — what the linking loop accepts, it places as the preorder walk
      does;
    * `linkFrames_progress` — it accepts every tree whose nodes have fewer than 2^32
      children;
    * `normalizers_agree` — all of this together, against the recursive normalizer. -/

namespace Enrich

open Store MapUpdate Hex Transact RoseTree List

/-! ## Sorting -/

/-- `compareTracePath` is the lexicographic order. -/
theorem compareTracePath_pos (left right : List Uint32) :
    0 < compareTracePath left right ↔ right < left := by
  induction left generalizing right with
  | nil =>
    refine iff_of_false ?_ (not_lt_nil right)
    rw [compareTracePath, length_nil]
    · omega
    · intro _ _ _ _ h
      cases h
  | cons a left ih =>
    cases right with
    | nil =>
      refine iff_of_true ?_ (nil_lt_cons a left)
      rw [compareTracePath, length_cons, length_nil]
      · omega
      · intro _ _ _ _ _ h
        cases h
    | cons b right =>
      rw [compareTracePath, cons_lt_cons_iff]
      by_cases hlt : a < b
      · rw [if_pos hlt]
        refine iff_of_false (by decide) ?_
        rintro (hba | ⟨rfl, -⟩)
        · exact lt_asymm hlt hba
        · exact lt_irrefl _ hlt
      · rw [if_neg hlt]
        by_cases hgt : a > b
        · rw [if_pos hgt]
          exact iff_of_true (by decide) (.inl hgt)
        · rw [if_neg hgt, ih]
          have heq : b = a := le_antisymm (not_lt.mp hlt) (not_lt.mp hgt)
          constructor
          · intro hrest
            exact .inr ⟨heq, hrest⟩
          · rintro (hba | ⟨-, hrest⟩)
            · exact absurd hba hgt
            · exact hrest

/-- The path of a decoded frame. -/
def PendingTraceFrame.address (item : PendingTraceFrame) : List Uint32 := item.frame.traceAddress

theorem PendingTraceFrame.le_iff {left right : PendingTraceFrame} :
    left.le right ↔ left.address ≤ right.address := by
  rw [PendingTraceFrame.le, ← not_lt, ← not_lt]
  exact not_congr (compareTracePath_pos left.address right.address)

instance : Std.Total PendingTraceFrame.le where
  total left right := by
    rw [PendingTraceFrame.le_iff, PendingTraceFrame.le_iff]
    exact le_total _ _

instance : IsTrans PendingTraceFrame PendingTraceFrame.le where
  trans left middle right := by
    rw [PendingTraceFrame.le_iff, PendingTraceFrame.le_iff, PendingTraceFrame.le_iff]
    exact le_trans

/-- A strictly ascending arrangement is what the sort produces. -/
theorem insertionSort_eq {pending arranged : List PendingTraceFrame} (hperm : arranged.Perm pending)
    (hsorted : arranged.Pairwise fun left right => left.address < right.address) :
    pending.insertionSort PendingTraceFrame.le = arranged := by
  have hnodup : (arranged.map PendingTraceFrame.address).Nodup :=
    pairwise_map.mpr (hsorted.imp ne_of_lt)
  have hpermSort : (pending.insertionSort PendingTraceFrame.le).Perm arranged :=
    (perm_insertionSort _ pending).trans hperm.symm
  refine hpermSort.eq_of_pairwise ?_ (pairwise_insertionSort _ pending) ?_
  · intro left right hleft hright hle hge
    refine inj_on_of_nodup_map hnodup (hpermSort.mem_iff.mp hleft) hright ?_
    exact le_antisymm (PendingTraceFrame.le_iff.mp hle) (PendingTraceFrame.le_iff.mp hge)
  · exact hsorted.imp fun hlt => PendingTraceFrame.le_iff.mpr (le_of_lt hlt)

/-- The conversion `uint32(n)` keeps the order of numbers below 2^32. -/
theorem uint32_lt (i j : Nat) (hij : i < j) (hj : j < 4294967296) : uint32 i < uint32 j := by
  rw [uint32, uint32, Fin.lt_def, Fin.val_ofNat, Fin.val_ofNat, Nat.mod_eq_of_lt hj,
    Nat.mod_eq_of_lt (hij.trans hj)]
  exact hij

variable {t : CallTree}

/-- Narrow paths leave room for at most 2^32 children. -/
theorem arity_le_of_narrow
    (hnarrow : ∀ pos ∈ positions id t [], ∀ part ∈ pos.path, part < 4294967296) :
    ∀ pos ∈ positions id t [], pos.arity ≤ 4294967296 := by
  intro pos hpos
  by_contra hlarge
  obtain ⟨child, hchild, hpath⟩ := exists_child id t [] pos hpos 4294967296 (by omega)
  have hlast : (4294967296 : Nat) ∈ child.path := by
    rw [hpath]
    exact mem_append_right _ (mem_singleton.mpr rfl)
  exact absurd (hnarrow child hchild _ hlast) (lt_irrefl _)

/-- A node under the converted path. -/
def converted (pos : Position Nat CallNode) : Position Uint32 CallNode :=
  ⟨pos.path.map uint32, pos.label, pos.arity⟩

theorem positions_uint32 (t : CallTree) :
    (positions id t []).map converted = positions uint32 t [] := positions_map id uint32 t []

variable {pos : Position Nat CallNode}

theorem mem_positions_uint32
    (hpos : pos ∈ positions id t []) : converted pos ∈ positions uint32 t [] :=
  positions_uint32 t ▸ mem_map_of_mem hpos

variable {nodes : List (Position Nat CallNode)} {items : List PendingTraceFrame}

/-- Decoded frames have the paths of their positions. -/
theorem addresses_decoded (h : Forall₂ Decodes nodes items) :
    items.map PendingTraceFrame.address = nodes.map fun pos => pos.path.map uint32 := by
  induction h with
  | nil => rfl
  | cons hdecodes _ ih =>
    rw [map_cons, map_cons, ih]
    exact congrArg (· :: _) hdecodes.traceAddress

section

variable (h : List.Forall₂ Decodes (positions id t []) items)
include h

theorem addresses_eq :
    items.map PendingTraceFrame.address = (positions uint32 t []).map Position.path := by
  rw [addresses_decoded h, ← positions_uint32, map_map]
  rfl

/-- Decoded frames say that the paths of the tree are narrow. -/
theorem arity_le_of_decoded : ∀ pos ∈ positions uint32 t [], pos.arity ≤ 4294967296 := by
  rw [← positions_uint32]
  intro pos hpos
  obtain ⟨source, hsource, rfl⟩ := mem_map.mp hpos
  refine arity_le_of_narrow ?_ source hsource
  intro other hother
  obtain ⟨item, -, hdecodes⟩ := exists_related h hother
  exact hdecodes.narrow

theorem addresses_sorted : items.Pairwise fun left right => left.address < right.address := by
  have hpaths : ((positions uint32 t []).map Position.path).Pairwise (· < ·) :=
    pairwise_map.mpr (positions_sorted uint32_lt t [] (arity_le_of_decoded h))
  rw [← addresses_eq h] at hpaths
  exact pairwise_map.mp hpaths

end

variable {order : List (Position Nat CallNode)} {pending : List PendingTraceFrame}

/-- **Sorting restores preorder**, whatever order the frames come in. -/
theorem sorted_arrangement (horder : order.Perm (positions id t []))
    (h : Forall₂ Decodes order pending) :
    Forall₂ Decodes (positions id t []) (pending.insertionSort PendingTraceFrame.le) := by
  obtain ⟨arranged, hdecodes, hperm⟩ := perm_comp_forall₂ horder.symm h
  rw [insertionSort_eq hperm (addresses_sorted hdecodes)]
  exact hdecodes

/-! ## The keys of the map -/

variable {path : List Uint32}

theorem dot_not_mem_parts :
    ∀ text ∈ path.map fun part => toString part.val, '.' ∉ text.toList := by
  intro text htext hdot
  obtain ⟨part, -, rfl⟩ := mem_map.mp htext
  exact absurd (Texts.isDigit_of_mem_toString hdot) (by decide)

/-- Only the root has the key of the root. -/
theorem tracePathKey_ne_nil (hpath : path ≠ []) : tracePathKey path ≠ tracePathKey [] := by
  intro heq
  -- the empty text is the join of one empty part
  have hparts : (path.map fun part => toString part.val) = [""] :=
    Texts.intercalate_injective rfl (mt map_eq_nil_iff.mp hpath) (cons_ne_nil _ _)
      dot_not_mem_parts (by decide) heq
  obtain ⟨part, -, hpart⟩ := mem_map.mp (hparts ▸ mem_cons_self)
  exact Nat.toDigits_ne_nil (Nat.toList_repr.symm.trans (congrArg String.toList hpart))

/-- **Distinct paths have distinct keys.** -/
theorem tracePathKey_inj {left right : List Uint32} :
    tracePathKey left = tracePathKey right ↔ left = right := by
  refine ⟨fun heq => ?_, fun heq => congrArg tracePathKey heq⟩
  by_cases hleft : left = []
  · by_contra hne
    subst hleft
    exact tracePathKey_ne_nil (Ne.symm hne) heq.symm
  · by_cases hright : right = []
    · subst hright
      exact absurd heq (tracePathKey_ne_nil hleft)
    · refine map_injective_iff.mpr ?_ (Texts.intercalate_injective rfl
        (mt map_eq_nil_iff.mp hleft) (mt map_eq_nil_iff.mp hright) dot_not_mem_parts
        dot_not_mem_parts heq)
      intro a b hab
      exact Fin.ext (Nat.repr_injective hab)

/-! ## One round of the linking loop -/

/-- Links a root. -/
def LinkState.addRoot (state : LinkState) (item : PendingTraceFrame) : LinkState := { state with
    indices := state.indices.insert (tracePathKey item.address) state.frames.length
    frames := state.frames ++ [{ item.frame with index := state.frames.length, parentIndex := -1 }]
    rootCount := state.rootCount + 1 }

/-- The state after a frame below a parent. -/
def LinkState.addChild (state : LinkState) (item : PendingTraceFrame) (path : List Uint32)
    (parent : Nat) : LinkState :=
  { state with
    indices := state.indices.insert (tracePathKey item.address) state.frames.length
    frames := state.frames ++ [{ item.frame with
          index := state.frames.length, parentIndex := parent
          reverted := item.frame.directReverted ||
            (state.frames[parent]?.elim false (·.reverted)) }]
    children := adjust 0 (· + 1) (tracePathKey path) state.children }

variable {item : PendingTraceFrame} {state next : LinkState}

/-- When a root is linked. -/
theorem linkFrame_root (hroot : item.address = []) : linkFrame pending state item = .ok next ↔
      state.indices.lookup (tracePathKey item.address) = none ∧
        (item.frame.type = .call ∨ item.frame.type = .create) ∧ next = state.addRoot item := by
  have hlast : item.frame.traceAddress.getLast? = none := getLast?_eq_none_iff.mpr hroot
  rw [linkFrame]
  rw [hlast]
  by_cases hknown : (state.indices.lookup (tracePathKey item.frame.traceAddress)).isSome
  · rw [if_pos hknown]
    refine iff_of_false nofun ?_
    rintro ⟨hnone, -⟩
    exact absurd (Option.isSome_iff_ne_none.mp hknown) (not_not.mpr hnone)
  · rw [if_neg hknown]
    have hnone : state.indices.lookup (tracePathKey item.address) = none :=
      Option.not_isSome_iff_eq_none.mp hknown
    by_cases htype : item.frame.type ≠ .call ∧ item.frame.type ≠ .create
    · refine iff_of_false (fun h => ?_) ?_
      · exact nomatch (if_pos htype).symm.trans h
      · rintro ⟨-, hok | hok, -⟩
        · exact htype.1 hok
        · exact htype.2 hok
    · have hok : item.frame.type = .call ∨ item.frame.type = .create := by
        rwa [← not_or, not_not] at htype
      constructor
      · intro h
        exact ⟨hnone, hok, (Except.ok.inj ((if_neg htype).symm.trans h)).symm⟩
      · rintro ⟨-, -, rfl⟩
        exact if_neg htype

variable {childIndex : Uint32}

/-- When a child is linked. -/
theorem linkFrame_child (hchild : item.address = path ++ [childIndex]) :
    linkFrame pending state item = .ok next ↔
      state.indices.lookup (tracePathKey item.address) = none ∧
        ∃ parent, state.indices.lookup (tracePathKey path) = some parent ∧
          childIndex.val < ((pending[parent]?.elim 0 (·.subtraces)) % 4294967296).toNat ∧
          next = state.addChild item path parent := by
  have hlast : item.frame.traceAddress.getLast? = some childIndex :=
    getLast?_eq_some_iff.mpr ⟨path, hchild⟩
  have hdrop : item.frame.traceAddress.dropLast = path :=
    (congrArg List.dropLast hchild).trans dropLast_concat
  rw [linkFrame]
  dsimp only
  rw [hlast, hdrop]
  by_cases hknown : (state.indices.lookup (tracePathKey item.frame.traceAddress)).isSome
  · rw [if_pos hknown]
    refine iff_of_false nofun ?_
    rintro ⟨hnone, -⟩
    exact absurd (Option.isSome_iff_ne_none.mp hknown) (not_not.mpr hnone)
  · rw [if_neg hknown]
    have hnone : state.indices.lookup (tracePathKey item.address) = none :=
      Option.not_isSome_iff_eq_none.mp hknown
    cases hparent : state.indices.lookup (tracePathKey path) with
    | none =>
      refine iff_of_false nofun ?_
      rintro ⟨-, parent, hsome, -⟩
      cases hsome
    | some parent =>
      dsimp only
      by_cases hexceeds :
          childIndex.val ≥ ((pending[parent]?.elim 0 (·.subtraces)) % 4294967296).toNat
      · rw [if_pos hexceeds]
        refine iff_of_false nofun ?_
        rintro ⟨-, other, hother, hbelow, -⟩
        cases hother
        exact absurd hbelow (not_lt.mpr hexceeds)
      · rw [if_neg hexceeds]
        constructor
        · intro h
          exact ⟨hnone, parent, rfl, not_le.mp hexceeds, (Except.ok.inj h).symm⟩
        · rintro ⟨-, other, hother, -, rfl⟩
          cases hother
          rfl

/-! ## What the linking loop accepts -/

/-- A later state keeps the entries and the frames of an earlier one. -/
structure Grows (state next : LinkState) : Prop where
  indices : ∀ key i, state.indices.lookup key = some i → next.indices.lookup key = some i
  frames : state.frames <+: next.frames

theorem Grows.refl (state : LinkState) : Grows state state := ⟨fun _ _ => id, prefix_refl _⟩

theorem Grows.trans {middle : LinkState} (h : Grows state middle)
    (h' : Grows middle next) : Grows state next :=
  ⟨fun key i hi => h'.indices key i (h.indices key i hi), h.frames.trans h'.frames⟩

/-- The frame of a path is linked at an index. -/
def Linked (state : LinkState) (path : List Uint32) (i : Nat) (reverted : Bool) : Prop :=
  state.indices.lookup (tracePathKey path) = some i ∧
    ∃ frame, state.frames[i]? = some frame ∧ frame.reverted = reverted

variable {reverted : Bool}

theorem Linked.grows {i : Nat} (h : Linked state path i reverted) (hgrows : Grows state next) :
    Linked next path i reverted := by
  obtain ⟨hindex, frame, hframe, hreverted⟩ := h
  refine ⟨hgrows.indices _ _ hindex, frame, ?_, hreverted⟩
  obtain ⟨hlt, rfl⟩ := List.getElem?_eq_some_iff.mp hframe
  exact prefix_iff_getElem?.mp hgrows.frames i hlt

/-- What hangs at a path: the root, or a frame below a linked parent. -/
def Hangs (state : LinkState) (path : List Uint32) (parent : Int) (reverted : Bool) : Prop :=
  (path = [] ∧ parent = -1 ∧ reverted = false) ∨
    ∃ above childIndex, ∃ i : Nat, path = above ++ [childIndex] ∧ parent = i ∧
      Linked state above i reverted

variable {state : LinkState}

/-- A state that a fresh frame was added to. -/
theorem grows_of_fresh (next : LinkState) {frame : CallFrame}
    (hfresh : state.indices.lookup (tracePathKey item.address) = none)
    (hindices : next.indices = state.indices.insert (tracePathKey item.address) state.frames.length)
    (hframes : next.frames = state.frames ++ [frame]) :
    Grows state next ∧ Linked next item.address state.frames.length frame.reverted := by
  refine ⟨⟨?_, ?_⟩, ?_, frame, ?_, rfl⟩
  · intro key i hi
    rw [hindices]
    refine (Finmap.lookup_insert_of_ne _ ?_).trans hi
    rintro rfl
    exact nomatch hi.symm.trans hfresh
  · rw [hframes]
    exact prefix_append _ _
  · rw [hindices]
    exact Finmap.lookup_insert _
  · rw [hframes, getElem?_append_right le_rfl, Nat.sub_self]
    rfl

/-- A linked frame gets the place of its position. -/
theorem linkFrame_place {parent : Int}
    (hdecodes : Decodes pos item) (hhangs : Hangs state (pos.path.map uint32) parent reverted)
    (h : linkFrame pending state item = .ok next) :
    Grows state next ∧
      Linked next (pos.path.map uint32) state.frames.length (reverted || pos.label.failed) ∧
      next.frames.map CallFrame.place = state.frames.map CallFrame.place ++
        [⟨state.frames.length, parent, pos.path.map uint32, pos.label.kind.type, pos.label.sender,
          reverted || pos.label.failed⟩] := by
  have haddress : item.address = pos.path.map uint32 := hdecodes.traceAddress
  rcases hhangs with ⟨hroot, rfl, rfl⟩ | ⟨above, childIndex, i, hpath, rfl, hindex, hframe⟩
  · obtain ⟨hfresh, -, rfl⟩ := (linkFrame_root (haddress.trans hroot)).mp h
    obtain ⟨hgrows, hlinked⟩ := grows_of_fresh (state.addRoot item) hfresh rfl rfl
    rw [Bool.false_or, ← haddress, ← hdecodes.reverted]
    refine ⟨hgrows, hlinked, ?_⟩
    rw [LinkState.addRoot, map_append, map_singleton, CallFrame.place, hdecodes.type,
      hdecodes.fromAddress]
    rfl
  · obtain ⟨hfresh, j, hj, -, rfl⟩ := (linkFrame_child (haddress.trans hpath)).mp h
    obtain rfl : i = j := Option.some.inj (hindex.symm.trans hj)
    obtain ⟨frame, hsome, rfl⟩ := hframe
    obtain ⟨hgrows, hlinked⟩ := grows_of_fresh (state.addChild item above i) hfresh rfl rfl
    have hreverted : (item.frame.directReverted || (state.frames[i]?.elim false (·.reverted)))
        = (frame.reverted || pos.label.failed) := by
      rw [hsome, hdecodes.directReverted]
      exact Bool.or_comm _ _
    rw [← haddress, ← hreverted]
    refine ⟨hgrows, hlinked, ?_⟩
    rw [LinkState.addChild, map_append, map_singleton, CallFrame.place, hdecodes.type,
      hdecodes.fromAddress]
    rfl

/-- Linking a list in two parts. -/
theorem linkFrames_append {left right : List PendingTraceFrame} :
    ∀ {state next : LinkState}, linkFrames pending (left ++ right) state = .ok next →
      ∃ middle, linkFrames pending left state = .ok middle ∧
        linkFrames pending right middle = .ok next := by
  induction left with
  | nil =>
    intro state next h
    exact ⟨state, rfl, h⟩
  | cons item rest ih =>
    intro state next h
    obtain ⟨first, hfirst, h⟩ := bind_eq_ok.mp h
    obtain ⟨middle, hrest, hright⟩ := ih h
    exact ⟨middle, bind_eq_ok.mpr ⟨first, hfirst, hrest⟩, hright⟩

/-- Frames that stand for the nodes of two lists in a row. -/
theorem forall₂_append_left {left right : List (Position Nat CallNode)}
    (h : Forall₂ Decodes (left ++ right) items) :
    ∃ itemsLeft itemsRight, items = itemsLeft ++ itemsRight ∧
      Forall₂ Decodes left itemsLeft ∧ Forall₂ Decodes right itemsRight := by
  induction left generalizing items with
  | nil => exact ⟨[], items, rfl, .nil, h⟩
  | cons pos rest ih =>
    cases h with
    | cons hdecodes hrest =>
      obtain ⟨itemsLeft, itemsRight, rfl, hleft, hright⟩ := ih hrest
      exact ⟨_ :: itemsLeft, itemsRight, rfl, .cons hdecodes hleft, hright⟩

mutual

/-- **The linking loop** places the frames of a tree as the preorder walk does. -/
theorem linkFrames_places (pending : List PendingTraceFrame) : ∀ (t : CallTree) (path : List Nat)
    (parent : Int) (reverted : Bool) (state next : LinkState) (items : List PendingTraceFrame),
    Forall₂ Decodes (positions id t path) items →
    Hangs state (path.map uint32) parent reverted →
    linkFrames pending items state = .ok next →
      Grows state next ∧ next.frames.map CallFrame.place = state.frames.map CallFrame.place ++
        places t (path.map uint32) parent reverted state.frames.length
  | .node node children, path, parent, reverted, state, next, items => by
      intro hdecodes hhangs h
      cases hdecodes with
      | cons hnode hchildren =>
        obtain ⟨middle, hitem, hrest⟩ := bind_eq_ok.mp h
        obtain ⟨hgrows, hlinked, hplace⟩ := linkFrame_place hnode hhangs hitem
        obtain ⟨hgrows', hplaces⟩ :=
          linkForest_places pending children path 0 state.frames.length
          (reverted || node.failed) middle next _ hchildren hlinked hrest
        have hlength : middle.frames.length = state.frames.length + 1 := by
          have := congrArg List.length hplace
          rwa [length_map, length_append, length_map, length_singleton] at this
        refine ⟨hgrows.trans hgrows', ?_⟩
        rw [hplaces, hplace, hlength, places, append_assoc]
        rfl

/-- Linked children get the places of their positions. -/
theorem linkForest_places (pending : List PendingTraceFrame) : ∀ (ts : List CallTree)
    (path : List Nat) (i : Nat) (parent : Nat) (reverted : Bool) (state next : LinkState)
    (items : List PendingTraceFrame),
    Forall₂ Decodes (forestPositions id ts path i) items →
    Linked state (path.map uint32) parent reverted →
    linkFrames pending items state = .ok next →
      Grows state next ∧ next.frames.map CallFrame.place = state.frames.map CallFrame.place ++
        placesFrom ts (path.map uint32) i parent reverted state.frames.length
  | [], path, i, parent, reverted, state, next, items => by
      intro hdecodes _ h
      cases hdecodes
      cases h
      exact ⟨Grows.refl _, (append_nil _).symm⟩
  | child :: rest, path, i, parent, reverted, state, next, items => by
      intro hdecodes hlinked h
      obtain ⟨first, later, rfl, hfirst, hlater⟩ := forall₂_append_left hdecodes
      obtain ⟨middle, hmiddle, hnext⟩ := linkFrames_append h
      have hpath : (path ++ [id i]).map uint32 = path.map uint32 ++ [uint32 i] := map_append
      have hhangs : Hangs state ((path ++ [id i]).map uint32) parent reverted :=
        .inr ⟨path.map uint32, uint32 i, parent, hpath, rfl, hlinked⟩
      obtain ⟨hgrows, hplaces⟩ :=
        linkFrames_places pending child (path ++ [id i]) parent reverted
        state middle first hfirst hhangs hmiddle
      obtain ⟨hgrows', hplaces'⟩ := linkForest_places pending rest path (i + 1) parent reverted
        middle next later hlater (hlinked.grows hgrows) hnext
      have hlength : middle.frames.length = state.frames.length +
          (places child (path.map uint32 ++ [uint32 i]) parent reverted
            state.frames.length).length := by
        have := congrArg List.length hplaces
        rwa [length_map, length_append, length_map, hpath] at this
      refine ⟨hgrows.trans hgrows', ?_⟩
      rw [hplaces', hplaces, hpath, hlength, placesFrom, append_assoc]

end

/-! ## What the linking loop is guaranteed to accept -/

/-- Frames in preorder, with everything that linking checks. -/
structure WellPlaced (items : List PendingTraceFrame) : Prop where
  ascending : items.Pairwise fun left right => left.address < right.address
  attached : ∀ item ∈ items,
    (item.address = [] ∧ (item.frame.type = .call ∨ item.frame.type = .create)) ∨
      ∃ parent ∈ items, ∃ childIndex, item.address = parent.address ++ [childIndex] ∧
        (childIndex.val : Int) < parent.subtraces
  subtraces : ∀ item ∈ items, 0 ≤ item.subtraces ∧ item.subtraces < 4294967296
  children : ∀ item ∈ items,
    (((items.map PendingTraceFrame.address).countP fun path => IsChildOf item.address path : Nat) :
      Int) = item.subtraces
  root : (items.map PendingTraceFrame.address).countP (fun path => path = []) = 1

/-- What the loop knows after a part of the frames. -/
structure Progress (handled : List PendingTraceFrame) (state : LinkState) : Prop where
  found : ∀ i item, handled[i]? = some item →
    state.indices.lookup (tracePathKey item.address) = some i
  only : ∀ key i, state.indices.lookup key = some i →
    ∃ item ∈ handled, key = tracePathKey item.address
  length : state.frames.length = handled.length
  children : ∀ path, (state.children.lookup (tracePathKey path)).getD 0
    = (handled.map PendingTraceFrame.address).countP fun other => IsChildOf path other
  roots : state.rootCount = (handled.map PendingTraceFrame.address).countP fun path => path = []

theorem Progress.start : Progress [] .start := by
  refine ⟨?_, ?_, rfl, fun _ => rfl, rfl⟩
  · intro i item h
    cases h
  · intro key i h
    exact nomatch (Finmap.lookup_empty key).symm.trans h

variable {handled : List PendingTraceFrame}

section

variable (h : Progress handled state) (hnew : ∀ other ∈ handled, other.address ≠ item.address)
include h hnew

/-- An address that is not handled yet is not in the map. -/
theorem Progress.fresh : state.indices.lookup (tracePathKey item.address) = none := by
  by_contra hsome
  obtain ⟨i, hi⟩ := Option.ne_none_iff_exists'.mp hsome
  obtain ⟨other, hother, hkey⟩ := h.only _ i hi
  exact hnew other hother (tracePathKey_inj.mp hkey).symm

/-- The part of the progress that is the same for roots and children. -/
theorem Progress.indices_insert : (∀ i other, (handled ++ [item])[i]? = some other →
      (state.indices.insert (tracePathKey item.address) state.frames.length).lookup
        (tracePathKey other.address) = some i) ∧
    ∀ key i, (state.indices.insert (tracePathKey item.address) state.frames.length).lookup key
        = some i →
      ∃ other ∈ handled ++ [item], key = tracePathKey other.address := by
  constructor
  · intro i other hother
    by_cases hlt : i < handled.length
    · rw [getElem?_append_left hlt] at hother
      have hne := hnew other (mem_of_getElem? hother)
      rw [Finmap.lookup_insert_of_ne _ fun heq => hne (tracePathKey_inj.mp heq)]
      exact h.found i other hother
    · rw [getElem?_append_right (not_lt.mp hlt), getElem?_singleton] at hother
      split_ifs at hother with hzero
      cases hother
      rw [Finmap.lookup_insert, h.length]
      congr 1
      omega
  · intro key i hi
    by_cases heq : key = tracePathKey item.address
    · exact ⟨item, mem_append_right _ (mem_singleton.mpr rfl), heq⟩
    · rw [Finmap.lookup_insert_of_ne _ heq] at hi
      obtain ⟨other, hother, hkey⟩ := h.only key i hi
      exact ⟨other, mem_append_left _ hother, hkey⟩

end

theorem countP_address (p : List Uint32 → Prop) [DecidablePred p]
    (handled : List PendingTraceFrame) (item : PendingTraceFrame) :
    ((handled ++ [item]).map PendingTraceFrame.address).countP (fun path => p path)
      = (handled.map PendingTraceFrame.address).countP (fun path => p path)
        + if p item.address then 1 else 0 := by
  rw [map_append, countP_append, map_singleton, countP_singleton]
  simp only [decide_eq_true_eq]

/-- A root keeps the progress. -/
theorem Progress.addRoot (h : Progress handled state)
    (hnew : ∀ other ∈ handled, other.address ≠ item.address) (hroot : item.address = []) :
    Progress (handled ++ [item]) (state.addRoot item) := by
  obtain ⟨hfound, honly⟩ := h.indices_insert hnew
  refine ⟨hfound, honly, ?_, ?_, ?_⟩
  · rw [LinkState.addRoot, length_append, length_append, h.length]
    rfl
  · intro path
    rw [countP_address (IsChildOf path), if_neg fun hchild => hchild.1 hroot]
    exact h.children path
  · rw [countP_address (· = []), if_pos hroot, ← h.roots]
    rfl

/-- A child keeps the progress. -/
theorem Progress.addChild {above : List Uint32} {parent : Nat}
    (h : Progress handled state) (hnew : ∀ other ∈ handled, other.address ≠ item.address)
    (hchild : item.address = above ++ [childIndex]) :
    Progress (handled ++ [item]) (state.addChild item above parent) := by
  obtain ⟨hfound, honly⟩ := h.indices_insert hnew
  have hne : item.address ≠ [] := by
    rw [hchild]
    exact append_ne_nil_of_right_ne_nil _ (cons_ne_nil _ _)
  refine ⟨hfound, honly, ?_, ?_, ?_⟩
  · rw [LinkState.addChild, length_append, length_append, h.length]
    rfl
  · intro path
    rw [countP_address (IsChildOf path), hchild, ← h.children path]
    by_cases heq : above = path
    · rw [if_pos (isChildOf_concat.mpr heq), ← heq]
      exact congrArg (Option.getD · 0) (Finmap.lookup_insert _)
    · rw [if_neg (mt isChildOf_concat.mp heq)]
      exact congrArg (Option.getD · 0)
        (Finmap.lookup_insert_of_ne _ fun hkey => heq (tracePathKey_inj.mp hkey).symm)
  · rw [countP_address (· = []), if_neg hne]
    exact h.roots

/-- Every round of the loop succeeds. -/
theorem linkFrame_progress {rest : List PendingTraceFrame} (hplaced : WellPlaced items)
    (hsplit : items = handled ++ item :: rest) (h : Progress handled state) :
    ∃ next, linkFrame items state item = .ok next ∧ Progress (handled ++ [item]) next := by
  have hascending := hplaced.ascending
  rw [hsplit] at hascending
  obtain ⟨-, hlater, hearlier⟩ := pairwise_append.mp hascending
  have hnew : ∀ other ∈ handled, other.address ≠ item.address := fun other hother =>
    ne_of_lt (hearlier other hother item mem_cons_self)
  have hmem : item ∈ items := by
    rw [hsplit]
    exact mem_append_right _ mem_cons_self
  rcases hplaced.attached item hmem
    with ⟨hroot, htype⟩ | ⟨parent, hparent, childIndex, haddress,
    hbelow⟩
  · exact ⟨_, (linkFrame_root hroot).mpr ⟨h.fresh hnew, htype, rfl⟩, h.addRoot hnew hroot⟩
  · -- the parent has the smaller address, so that it has been handled
    have hlt : parent.address < item.address := by
      rw [haddress]
      exact lt_of_extension (prefix_refl _)
    have hhandled : parent ∈ handled := by
      have hsplitMem := hparent
      rw [hsplit] at hsplitMem
      rcases mem_append.mp hsplitMem with hmem | hmem
      · exact hmem
      · rcases mem_cons.mp hmem with rfl | hmem
        · exact absurd hlt (lt_irrefl _)
        · exact absurd hlt (lt_asymm ((pairwise_cons.mp hlater).1 parent hmem))
    obtain ⟨i, hi⟩ := mem_iff_getElem?.mp hhandled
    have hpending : items[i]? = some parent := by
      obtain ⟨hlength, -⟩ := List.getElem?_eq_some_iff.mp hi
      rw [hsplit, getElem?_append_left hlength]
      exact hi
    obtain ⟨hnonneg, hsmall⟩ := hplaced.subtraces parent hparent
    refine ⟨_, (linkFrame_child haddress).mpr ⟨h.fresh hnew, i, h.found i parent hi, ?_, rfl⟩,
      h.addChild hnew haddress⟩
    rw [hpending]
    show childIndex.val < (parent.subtraces % 4294967296).toNat
    rw [Int.emod_eq_of_lt hnonneg hsmall]
    omega

/-- **The linking loop is total** on well-placed frames. -/
theorem linkFrames_progress (hplaced : WellPlaced items) :
    ∀ (rest handled : List PendingTraceFrame) (state : LinkState), items = handled ++ rest →
      Progress handled state →
      ∃ next, linkFrames items rest state = .ok next ∧ Progress items next := by
  intro rest
  induction rest with
  | nil =>
    intro handled state hsplit h
    rw [append_nil] at hsplit
    exact ⟨state, rfl, hsplit ▸ h⟩
  | cons item rest ih =>
    intro handled state hsplit h
    obtain ⟨middle, hitem, hprogress⟩ := linkFrame_progress hplaced hsplit h
    have hsplit' : items = (handled ++ [item]) ++ rest := by
      rw [hsplit, append_assoc]
      rfl
    obtain ⟨next, hnext, hfinal⟩ := ih (handled ++ [item]) middle hsplit' hprogress
    exact ⟨next, bind_eq_ok.mpr ⟨middle, hitem, hnext⟩, hfinal⟩

/-- Linking well-placed frames succeeds, the final checks included. -/
theorem linkTrace_total (hplaced : WellPlaced (pending.insertionSort PendingTraceFrame.le)) :
    ∃ trace, linkTrace pending = .ok trace := by
  obtain ⟨state, hstate, hprogress⟩ :=
    linkFrames_progress hplaced _ [] .start rfl Progress.start
  refine ⟨⟨.traceAPI, state.frames⟩, ?_⟩
  rw [linkTrace]
  refine bind_eq_ok.mpr
    ⟨state, hstate, bind_eq_ok.mpr ⟨(), ?_, bind_eq_ok.mpr ⟨(), ?_, rfl⟩⟩⟩
  · exact failIf_eq_ok.mpr (not_not.mpr (hprogress.roots.trans hplaced.root))
  · refine checkAll_eq_ok.mpr ?_
    intro item hitem
    refine failIf_eq_ok.mpr (not_not.mpr ?_)
    rw [← hplaced.children item hitem, ← hprogress.children item.address]
    rfl

/-- **The frames of a tree are well placed**, as long as no node has 2^32 children or more
    and the root is a call or a creation. -/
theorem wellPlaced_of_decodes (h : Forall₂ Decodes (positions id t []) items)
    (harity : ∀ pos ∈ positions id t [], pos.arity < 4294967296)
    (hroot : ∀ pos ∈ positions id t [], pos.path = [] →
      pos.label.kind = .call ∨ pos.label.kind = .create) :
    WellPlaced items := by
  have hnodes := arity_le_of_decoded h
  refine ⟨addresses_sorted h, ?_, ?_, ?_, ?_⟩
  · intro item hitem
    obtain ⟨pos, hpos, hdecodes⟩ := exists_related h.flip hitem
    have haddress : item.address = pos.path.map uint32 := hdecodes.traceAddress
    rcases exists_parent id t [] pos hpos with hnil | ⟨parent, hparent, i, hi, hpath⟩
    · left
      rw [haddress, hdecodes.type, hnil]
      refine ⟨rfl, ?_⟩
      rcases hroot pos hpos hnil with hkind | hkind
      · exact .inl (congrArg CallKind.type hkind)
      · exact .inr (congrArg CallKind.type hkind)
    · right
      -- a frame below the root hangs on a frame that announces enough of them
      obtain ⟨above, habove, hdecodesAbove⟩ := exists_related h hparent
      refine ⟨above, habove, uint32 i, ?_, ?_⟩
      · have haddressAbove : above.address = parent.path.map uint32 := hdecodesAbove.traceAddress
        rw [haddress, hpath, haddressAbove, map_append]
        rfl
      · have hsmall := harity parent hparent
        rw [hdecodesAbove.subtraces, uint32, Fin.val_ofNat, Nat.mod_eq_of_lt (by omega)]
        exact Int.ofNat_lt.mpr hi
  · intro item hitem
    obtain ⟨pos, hpos, hdecodes⟩ := exists_related h.flip hitem
    have hsmall := harity pos hpos
    rw [hdecodes.subtraces]
    omega
  · intro item hitem
    obtain ⟨pos, hpos, hdecodes⟩ := exists_related h.flip hitem
    have haddress : item.address = pos.path.map uint32 := hdecodes.traceAddress
    -- each frame has as many children as it announces
    have hmem : converted pos ∈ positions uint32 t [] := mem_positions_uint32 hpos
    rw [hdecodes.subtraces, addresses_eq h, haddress]
    exact congrArg Int.ofNat (countP_children uint32_lt t [] hnodes _ hmem)
  · -- there is one root
    obtain ⟨pos, hpos, hnil⟩ := exists_root uint32 t []
    have hmem : ([] : List Uint32) ∈ (positions uint32 t []).map Position.path :=
      mem_map.mpr ⟨pos, hpos, hnil⟩
    have hcount := count_eq_one_of_mem (paths_nodup uint32_lt t [] hnodes) hmem
    rw [addresses_eq h, ← hcount, List.count]
    refine countP_congr ?_
    intro path _
    rw [decide_eq_true_iff, beq_iff_eq]

/-! ## Both normalizers -/

mutual

theorem length_places : ∀ (t : CallTree) (path : List Uint32) (parent : Int) (reverted : Bool)
    (base : Nat), (places t path parent reverted base).length = (positions uint32 t path).length
  | .node node children, path, parent, reverted, base => by
      rw [places, positions, length_cons, length_cons, length_placesFrom]

/-- A forest has as many places as positions. -/
theorem length_placesFrom : ∀ (ts : List CallTree) (path : List Uint32) (i : Nat) (parent : Int)
    (reverted : Bool) (base : Nat),
    (placesFrom ts path i parent reverted base).length = (forestPositions uint32 ts path i).length
  | [], _, _, _, _, _ => rfl
  | child :: rest, path, i, parent, reverted, base => by
      rw [placesFrom, forestPositions, length_append, length_append, length_places,
        length_placesFrom]

end

variable {hexutil : HexUtil} {limits : TraceLimits} {data : String} {trace : NormalizedTrace}

/-- What `NormalizeCallTracer` accepts, it has walked over in preorder. -/
theorem normalizeCallTracer_walk {unmarshal : String → CallTracerRaw}
    (hdata : unmarshal data = encodeNested t)
    (h : normalizeCallTracer hexutil limits unmarshal data = .ok trace) :
    limits.validate = .ok () ∧ ∃ builder, trace.frames = builder.frames ∧
      WalkAccepted limits .empty builder (positions uint32 t []) (places t [] (-1) false 0) := by
  obtain ⟨⟨⟩, hlimits, h⟩ := bind_eq_ok.mp h
  split_ifs at h with hpayload hempty
  obtain ⟨builder, hbuilder, h⟩ := bind_eq_ok.mp h
  cases h
  rw [hdata] at hbuilder
  exact ⟨hlimits, builder, rfl, appendCallTracer_places hexutil limits t [] (-1) false .empty
    builder hbuilder⟩

variable {identity : TraceIdentity} {spelling : IdentityWire identity}
  {unmarshal : String → Except String (List TraceAPIWire)}

/-- What `NormalizeTraceAPI` accepts, it has placed in preorder. -/
theorem normalizeTraceAPI_places (horder : order.Perm (positions id t []))
    (hdata : unmarshal data = .ok (order.map (encodeFrame spelling)))
    (h : normalizeTraceAPI limits unmarshal data identity = .ok trace) :
    trace.frames.map CallFrame.place = places t [] (-1) false 0 := by
  obtain ⟨⟨⟩, -, h⟩ := bind_eq_ok.mp h
  obtain ⟨⟨⟩, -, h⟩ := bind_eq_ok.mp h
  split_ifs at h with hpayload
  obtain ⟨wires, hwires, h⟩ := bind_eq_ok.mp h
  obtain rfl := Except.ok.inj ((inContext_eq_ok.mp hwires).symm.trans hdata)
  split_ifs at h with hempty hcount
  obtain ⟨pending, hpending, h⟩ := bind_eq_ok.mp h
  obtain ⟨state, hstate, h⟩ := bind_eq_ok.mp h
  obtain ⟨⟨⟩, -, h⟩ := bind_eq_ok.mp h
  obtain ⟨⟨⟩, -, h⟩ := bind_eq_ok.mp h
  cases h
  have hsorted := sorted_arrangement horder (decodeFrames_decodes hpending)
  exact (linkFrames_places _ t [] (-1) false .start state _ hsorted
    (.inl ⟨rfl, rfl, rfl⟩) hstate).2

variable {builder : TraceBuilder}

/-- A node that the recursive normalizer walked over is one that the flat one decodes. -/
theorem flatNode_of_walk {appended : List Place}
    (hwalk : WalkAccepted limits .empty builder (positions uint32 t []) appended)
    (hcount : ((positions uint32 t []).length : Int) ≤ limits.maxFrames)
    (harity : ∀ pos ∈ positions id t [], pos.arity < 4294967296) :
    ∀ pos ∈ positions id t [], FlatNode limits pos := by
  have hbound : ∀ pos ∈ positions uint32 t [], pos.arity ≤ 4294967296 := by
    rw [← positions_uint32]
    intro pos hpos
    obtain ⟨source, hsource, rfl⟩ := mem_map.mp hpos
    exact le_of_lt (harity source hsource)
  intro pos hpos
  have hmem : converted pos ∈ positions uint32 t [] := mem_positions_uint32 hpos
  refine ⟨hwalk.decoded _ hmem, ?_, ?_, ?_⟩
  · have hdepth := hwalk.depth _ hmem
    rwa [converted, length_map] at hdepth
  · refine forall_mem_path id ?_ ?_ pos hpos
    · intro part hpart
      cases hpart
    · intro parent hparent i hi
      exact hi.trans (harity parent hparent)
  · have hle : pos.arity ≤ (positions uint32 t []).length :=
      calc pos.arity
          = ((positions uint32 t []).map Position.path).countP
              (fun q => IsChildOf (pos.path.map uint32) q) :=
            (countP_children uint32_lt t [] hbound _ hmem).symm
        _ ≤ ((positions uint32 t []).map Position.path).length := countP_le_length
        _ = (positions uint32 t []).length := length_map _
    omega

/-- A sum over the labels of the nodes does not depend on the order or on the indices. -/
theorem sum_labels (size : CallNode → Nat) (horder : order.Perm (positions id t [])) :
    (order.map fun pos => size pos.label).sum
      = ((positions uint32 t []).map fun pos => size pos.label).sum := by
  rw [(horder.map _).sum_eq, ← positions_uint32, map_map]
  rfl

/-- What `NormalizeCallTracer` accepts, `NormalizeTraceAPI` accepts as well. -/
theorem normalizeTraceAPI_total (horder : order.Perm (positions id t []))
    (hdata : unmarshal data = .ok (order.map (encodeFrame spelling)))
    (hlimits : limits.validate = .ok ()) (hidentity : identity.validate = .ok ())
    (hpayload : (data.utf8ByteSize : Int) ≤ limits.maxPayloadBytes)
    (hwalk : WalkAccepted limits .empty builder (positions uint32 t []) (places t [] (-1) false 0))
    (harity : ∀ pos ∈ positions id t [], pos.arity < 4294967296) :
    ∃ trace, normalizeTraceAPI limits unmarshal data identity = .ok trace := by
  have hpositive := failIf_eq_ok.mp hlimits
  have hlength : order.length = (positions uint32 t []).length := by
    rw [horder.length_eq, ← positions_uint32, length_map]
  -- both normalizers count the same frames, data and texts
  have hcount : (order.length : Int) ≤ limits.maxFrames := by
    have hframes := hwalk.frameLimit (by simp only [TraceBuilder.empty, length_nil]; omega)
    rw [hwalk.length, length_places] at hframes
    rw [hlength]
    simpa [TraceBuilder.empty] using hframes
  have hnodes : ∀ pos ∈ order, FlatNode limits pos := by
    intro pos hpos
    exact flatNode_of_walk hwalk (hlength ▸ hcount) harity pos (horder.mem_iff.mp hpos)
  have hdataBytes := hwalk.dataLimit (by simp only [TraceBuilder.empty]; omega)
  have htextBytes := hwalk.textLimit (by simp only [TraceBuilder.empty]; omega)
  rw [hwalk.dataBytes, ← sum_labels CallNode.dataSize horder] at hdataBytes
  rw [hwalk.textBytes, ← sum_labels CallNode.textSize horder] at htextBytes
  obtain ⟨pending, hpending⟩ := decodeFrames_total spelling hnodes hdataBytes htextBytes
  have hroot : ∀ pos ∈ positions id t [], pos.path = [] →
      pos.label.kind = .call ∨ pos.label.kind = .create := by
    intro pos hpos hnil
    exact hwalk.root _ (mem_positions_uint32 hpos) (map_eq_nil_iff.mpr hnil)
  -- sorting brings the frames into the order of the tree
  have hsorted := sorted_arrangement horder (decodeFrames_decodes hpending)
  obtain ⟨trace, htrace⟩ := linkTrace_total (wellPlaced_of_decodes hsorted harity hroot)
  refine ⟨trace, ?_⟩
  have hnonempty : ¬ order.map (encodeFrame spelling) = [] := by
    obtain ⟨pos, hpos, -⟩ := exists_root id t []
    exact fun hnil => ne_nil_of_mem (horder.mem_iff.mpr hpos) (map_eq_nil_iff.mp hnil)
  rw [normalizeTraceAPI, hlimits, hidentity]
  refine bind_eq_ok.mpr ⟨(), rfl, bind_eq_ok.mpr ⟨(), rfl, ?_⟩⟩
  rw [if_neg (not_lt.mpr hpayload), hdata]
  refine bind_eq_ok.mpr ⟨_, rfl, ?_⟩
  rw [if_neg hnonempty, length_map, if_neg (not_lt.mpr hcount)]
  exact bind_eq_ok.mpr ⟨pending, hpending, htrace⟩

/-- **The two normalizers agree.**  Where both accept, their frames are placed alike; and
    the flat one accepts whatever the recursive one does, provided that its own payload is
    within the limit and no node has 2^32 children or more. -/
theorem normalizers_agree (hexutil : HexUtil) (limits : TraceLimits) (identity : TraceIdentity)
    (spelling : IdentityWire identity) (t : CallTree) (order : List (Position Nat CallNode))
    (horder : order.Perm (positions id t []))
    (unmarshalNested : String → CallTracerRaw)
    (unmarshalFlat : String → Except String (List TraceAPIWire)) (nested flat : String)
    (hnested : unmarshalNested nested = encodeNested t)
    (hflat : unmarshalFlat flat = .ok (order.map (encodeFrame spelling))) :
    (∀ left right, normalizeCallTracer hexutil limits unmarshalNested nested = .ok left →
      normalizeTraceAPI limits unmarshalFlat flat identity = .ok right →
        left.frames.map CallFrame.place = right.frames.map CallFrame.place) ∧
    (∀ left, normalizeCallTracer hexutil limits unmarshalNested nested = .ok left →
      identity.validate = .ok () → (flat.utf8ByteSize : Int) ≤ limits.maxPayloadBytes →
      (∀ pos ∈ positions id t [], pos.arity < 4294967296) →
        ∃ right, normalizeTraceAPI limits unmarshalFlat flat identity = .ok right) := by
  constructor
  · intro left right hleft hright
    obtain ⟨-, builder, hframes, hwalk⟩ := normalizeCallTracer_walk hnested hleft
    rw [normalizeTraceAPI_places horder hflat hright, hframes, hwalk.places]
    rfl
  · intro left hleft hidentity hpayload harity
    obtain ⟨hlimits, builder, -, hwalk⟩ := normalizeCallTracer_walk hnested hleft
    exact normalizeTraceAPI_total horder hflat hlimits hidentity hpayload hwalk harity

/-! ## Two small trees -/

/-- A node without optional fields. -/
def plainNode (kind : CallKind) (source target : String) (error : String) : CallNode where
  kind := kind
  fromText := source
  toText := target
  value := ""
  gas := ""
  gasUsed := ""
  input := ""
  output := ""
  error := error
  revertReason := ""
  logs := []
  reason_error _ := rfl

/-- An address. -/
def addressOne : String := "0x0000000000000000000000000000000000000001"

/-- Another address. -/
def addressTwo : String := "0x0000000000000000000000000000000000000002"

/-- A failed call, and below it a creation and a self-destruction. -/
def failedCall : CallTree := .node (plainNode .call addressOne addressTwo "execution reverted")
    [.node (plainNode .create addressTwo addressOne "") [],
     .node (plainNode .selfdestruct addressTwo addressOne "") []]

/-- A call without calls. -/
def singleCall : CallTree := .node (plainNode .call addressOne addressTwo "") []

/-- A hash, as a text. -/
def hashText : String := "0x0000000000000000000000000000000000000000000000000000000000000001"

/-- The hash with this text. -/
def smallWord : Word := ⟨List.replicate 31 (Fin.ofNat 256 0) ++ [Fin.ofNat 256 1], rfl⟩

theorem parseWord_hashText : parseWord hashText = .ok smallWord := by decide +kernel

/-- A transaction of a block at height 7. -/
def smallIdentity : TraceIdentity :=
  ⟨smallWord, Fin.ofNat 18446744073709551616 7, smallWord, Fin.ofNat 18446744073709551616 0⟩

theorem parse_smallNumber :
    parseTraceWireUint64 (.literal "7") = .ok smallIdentity.blockNumber := by decide +kernel

theorem parse_smallIndex :
    parseTraceWireUint64 (.literal "0") = .ok smallIdentity.transactionIndex := by decide +kernel

/-- A spelling of this identity. -/
def smallSpelling : IdentityWire smallIdentity where
  blockHash := hashText
  blockNumber := .literal "7"
  transactionHash := hashText
  transactionPosition := .literal "0"
  blockHash_ok := parseWord_hashText
  blockNumber_ok := parse_smallNumber
  transactionHash_ok := parseWord_hashText
  transactionPosition_ok := parse_smallIndex

/-- Functions that read no log. -/
def noLogs : HexUtil := ⟨fun _ => none, fun _ => none, fun _ => zeroWord⟩

/-- Limits that only the payload can exceed. -/
def payloadLimits (payload : Nat) : TraceLimits :=
  ⟨payload, 100, 100, 100, 100, 100, 100, 100, 100, 100, 100, 100, 100⟩

/-- The frames of a tree from last to first. -/
def reversedFrames (t : CallTree) : List (Position Nat CallNode) := (positions id t []).reverse

/-- A failed call whose flat frames come in reverse order. -/
theorem normalizers_agree_reversed : ∃ left right,
      normalizeCallTracer noLogs (payloadLimits 1) (fun _ => encodeNested failedCall) "-"
        = .ok left ∧
      normalizeTraceAPI (payloadLimits 1)
        (fun _ => .ok ((reversedFrames failedCall).map (encodeFrame smallSpelling))) "-"
        smallIdentity = .ok right ∧
      left.frames.map CallFrame.place = right.frames.map CallFrame.place := by
  obtain ⟨hplaces, haccepts⟩ :=
    normalizers_agree noLogs (payloadLimits 1) smallIdentity smallSpelling
    failedCall (reversedFrames failedCall) (reverse_perm _)
    (fun _ => encodeNested failedCall)
    (fun _ => .ok ((reversedFrames failedCall).map (encodeFrame smallSpelling))) "-" "-" rfl rfl
  have hok : (normalizeCallTracer noLogs (payloadLimits 1) (fun _ => encodeNested failedCall)
      "-").isOk = true := by decide +kernel
  cases hleft : normalizeCallTracer noLogs (payloadLimits 1)
    (fun _ => encodeNested failedCall) "-" with
  | error err =>
    rw [hleft] at hok
    cases hok
  | ok left =>
    obtain ⟨right, hright⟩ := haccepts left hleft (by decide +kernel) (by decide +kernel)
      (by decide +kernel)
    exact ⟨left, right, rfl, hright, hplaces left right hleft hright⟩

/-- The single call as `callTracer` text. -/
def nestedText : String :=
  "\x7b\"type\":\"CALL\",\"from\":\"" ++ addressOne ++ "\",\"to\":\"" ++ addressTwo ++ "\"\x7d"

/-- The single call as `trace_*` text. -/
def flatText : String := "[\x7b\"action\":\x7b\"callType\":\"call\",\"from\":\"" ++ addressOne ++
    "\",\"to\":\"" ++ addressTwo ++
    "\"\x7d,\"result\":\x7b\x7d,\"subtraces\":0,\"traceAddress\":[],\"type\":\"call\"" ++
    ",\"blockHash\":\"" ++ hashText ++ "\",\"blockNumber\":7,\"transactionHash\":\"" ++
    hashText ++ "\",\"transactionPosition\":0\x7d]"

/-- **The flat payload can be too large** where the nested one is not: each encoding is
    measured against the same number of bytes. -/
theorem flat_payload_rejected :
    (∃ left, normalizeCallTracer noLogs (payloadLimits nestedText.utf8ByteSize)
      (fun _ => encodeNested singleCall) nestedText = .ok left) ∧
    normalizeTraceAPI (payloadLimits nestedText.utf8ByteSize)
      (fun _ => .ok ((positions id singleCall []).map (encodeFrame smallSpelling))) flatText
      smallIdentity = .error "trace exceeds configured limit: payload bytes" := by
  constructor
  · have hok : (normalizeCallTracer noLogs (payloadLimits nestedText.utf8ByteSize)
        (fun _ => encodeNested singleCall) nestedText).isOk = true := by decide +kernel
    cases hleft : normalizeCallTracer noLogs (payloadLimits nestedText.utf8ByteSize)
        (fun _ => encodeNested singleCall) nestedText with
    | error err =>
      rw [hleft] at hok
      cases hok
    | ok left => exact ⟨left, rfl⟩
  · have hlimits : (payloadLimits nestedText.utf8ByteSize).validate = .ok () := by decide +kernel
    have hidentity : smallIdentity.validate = .ok () := by decide +kernel
    have hlarge : (flatText.utf8ByteSize : Int)
        > (payloadLimits nestedText.utf8ByteSize).maxPayloadBytes := by decide +kernel
    have hmessage : traceLimit "payload bytes"
        = "trace exceeds configured limit: payload bytes" := by decide +kernel
    rw [normalizeTraceAPI, hlimits, hidentity, ← hmessage]
    refine bind_eq_error.mpr (.inr ⟨(), rfl, bind_eq_error.mpr (.inr ⟨(), rfl, ?_⟩)⟩)
    rw [if_pos hlarge]
    rfl

end Enrich
