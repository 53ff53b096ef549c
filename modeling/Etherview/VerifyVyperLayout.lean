import Etherview.VerifyVyper

/-! # Which code layouts are accepted

    `walkVyperLayout_ok` and `walkVyperLayout_complete` compare the walk over a code
    layout with the list of its nodes: the walk ends without an error iff every node is
    as it should be and the leaves are not too many, and it has then added the leaves
    in some order.  `Patch.sweep_eq_some` turns the check of the sorted ranges into a
    tiling of the section.  The conditions know of no order (`LayoutAccepted`), so the
    outcome does not depend on one. -/

namespace Verify

open Json Patch Texts Transact List

/-! ## The walk -/

/-- Some leaves, added one after the other. -/
def LayoutState.addAll (runtimeSize : Nat) (s : LayoutState)
    (leaves : List (List String × BytecodeRange)) : LayoutState :=
  leaves.foldl (fun s leaf => s.add runtimeSize (dotted leaf.1) leaf.2) s

/-- The reference of a leaf. -/
def leafEntry (runtimeSize : Nat) (leaf : List String × BytecodeRange) :
    String × List BytecodeRange :=
  (dotted leaf.1, [⟨(runtimeSize + leaf.2.start) % 2 ^ 64, leaf.2.length⟩])

section

variable (runtimeSize : Nat) (s : LayoutState) (leaves : List (List String × BytecodeRange))

/-- The references after some leaves. -/
theorem LayoutState.addAll_refs :
    (s.addAll runtimeSize leaves).refs = s.refs.insertAll (leaves.map (leafEntry runtimeSize)) := by
  induction leaves generalizing s with
  | nil => rfl
  | cons leaf rest ih => exact ih _

theorem LayoutState.addAll_ranges :
    (s.addAll runtimeSize leaves).ranges = s.ranges ++ leaves.map Prod.snd := by
  induction leaves generalizing s with
  | nil => exact (append_nil _).symm
  | cons leaf rest ih =>
    refine (ih _).trans ?_
    show (s.ranges ++ [leaf.2]) ++ rest.map Prod.snd = _
    rw [append_assoc, map_cons, singleton_append]

/-- Leaves add at most as many references. -/
theorem LayoutState.addAll_size :
    (s.addAll runtimeSize leaves).refs.size ≤ s.refs.size + leaves.length := by
  rw [LayoutState.addAll_refs]
  exact (GoMap.size_insertAll_le _ _).trans_eq (by rw [length_map])

end

/-- What a walk over some members has done: every node was as it should be, and the
    leaves were added in some order. -/
structure Walked (runtimeSize : Nat) (path : List String) (members : Members)
    (s s' : LayoutState) : Prop where
  nodes : ∀ node ∈ nodesOf path members, LayoutNodeOk node
  added : ∃ leaves, leaves.Perm (leavesOf (nodesOf path members))
    ∧ s' = s.addAll runtimeSize leaves
  count : s.refs.size ≤ 4096 → s'.refs.size ≤ 4096

section Walk

variable {runtimeSize : Nat} {path : List String} {members : Members} {s s' : LayoutState}

theorem Walked.nil : Walked runtimeSize path [] s s where
  nodes := by
    intro node hnode
    cases hnode
  added := ⟨[], by rw [nodesOf]; exact List.Perm.nil, rfl⟩
  count := id

/-- Members are walked in two parts. -/
theorem Walked.append {others : Members} {s'' : LayoutState}
    (h : Walked runtimeSize path members s s') (h' : Walked runtimeSize path others s' s'') :
    Walked runtimeSize path (members ++ others) s s'' := by
  have hnodes : nodesOf path (members ++ others) = nodesOf path members ++ nodesOf path others := by
    rw [nodesOf_eq_flatMap, nodesOf_eq_flatMap, nodesOf_eq_flatMap, flatMap_append]
  obtain ⟨leaves, hperm, rfl⟩ := h.added
  obtain ⟨leaves', hperm', rfl⟩ := h'.added
  refine ⟨?_, ⟨leaves ++ leaves', ?_, ?_⟩, fun hcount => h'.count (h.count hcount)⟩
  · intro node hnode
    rw [hnodes] at hnode
    exact (mem_append.mp hnode).elim (h.nodes node) (h'.nodes node)
  · rw [hnodes, leavesOf, filterMap_append]
    exact hperm.append hperm'
  · rw [LayoutState.addAll, LayoutState.addAll, LayoutState.addAll, foldl_append]

/-- The order of the members does not matter. -/
theorem Walked.perm {members' : Members} (h : Walked runtimeSize path members s s')
    (hperm : members.Perm members') : Walked runtimeSize path members' s s' := by
  have hnodes := nodesOf_perm hperm path
  obtain ⟨leaves, hleaves, hs⟩ := h.added
  exact ⟨fun node hnode => h.nodes node (hnodes.mem_iff.mpr hnode),
    ⟨leaves, hleaves.trans (hnodes.filterMap _), hs⟩, h.count⟩

/-- A walk adds at most as many references as there are leaves. -/
theorem Walked.size_le (h : Walked runtimeSize path members s s') :
    s'.refs.size ≤ s.refs.size + (leavesOf (nodesOf path members)).length := by
  obtain ⟨leaves, hleaves, rfl⟩ := h.added
  rw [← hleaves.length_eq]
  exact LayoutState.addAll_size _ _ _

theorem nodesOf_singleton (path : List String) (entry : String × Value) :
    nodesOf path [entry] = entryNodes path entry := by
  rw [nodesOf_eq_flatMap, flatMap_singleton]

variable {name : String}

theorem entryNodes_leaf {value : Value} (h : isLayoutLeaf value = true) :
    entryNodes path (name, value) = [(path ++ [name], value)] := by
  rw [entryNodes, if_pos h]

/-- The nodes of an inner object: itself and those of its members. -/
theorem entryNodes_inner (h : isLayoutLeaf (.object members) = false) :
    entryNodes path (name, .object members)
      = (path ++ [name], .object members) :: nodesOf (path ++ [name]) members := by
  rw [entryNodes, if_neg (by rw [h]; exact Bool.false_ne_true), nodesBelow]

variable {node : LayoutNode}

theorem leafRange_inner (h : isLayoutLeaf node.2 = false) : leafRange node = none := by
  unfold leafRange
  split
  · rw [if_neg (by rw [h]; exact Bool.false_ne_true)]
  · rfl

/-- A range has the path of its leaf. -/
theorem leafRange_path {leaf : List String × BytecodeRange}
    (h : leafRange node = some leaf) : leaf.1 = node.1 := by
  unfold leafRange at h
  split at h
  · split at h
    · obtain ⟨span, -, rfl⟩ := Option.map_eq_some_iff.mp h
      rfl
    · cases h
  · cases h

variable {span : BytecodeRange}

/-- The range of a leaf that is accepted. -/
theorem leafRange_leaf (h : isLayoutLeaf (.object members) = true)
    (hspan : vyperLeaf members = .ok span) :
    leafRange (path, .object members) = some (path, span) := by
  simp only [leafRange, h, hspan]
  rfl

/-- The leaves of an inner node are those below it. -/
theorem leavesOf_inner (h : isLayoutLeaf (.object members) = false) :
    leavesOf (entryNodes path (name, .object members))
      = leavesOf (nodesOf (path ++ [name]) members) := by
  rw [entryNodes_inner h, leavesOf, filterMap_cons_none (leafRange_inner h)]
  rfl

theorem leavesOf_leaf
    (h : isLayoutLeaf (.object members) = true) (hspan : vyperLeaf members = .ok span) :
    leavesOf (entryNodes path (name, .object members)) = [(path ++ [name], span)] := by
  rw [entryNodes_leaf h, leavesOf, filterMap_cons_some (leafRange_leaf h hspan)]
  rfl

/-- What a walk one level down has to do. -/
def Descends (runtimeSize : Nat) (path : List String) (value : Value) (s s' : LayoutState) : Prop :=
  ∃ members, value = .object members ∧ path.length ≤ 32 ∧ members.length ≤ 4096
    ∧ Walked runtimeSize path members s s'

variable {descend : String → Value → LayoutState → Except VerifyError LayoutState}

/-- One round of the loop. -/
theorem visitVyperEntry_ok {value : Value} (hnames : ∀ name ∈ path, PlainName name)
    (hdescend : (∀ n ∈ path ++ [name], PlainName n) → ∀ s s',
      descend (dotted (path ++ [name])) value s = .ok s' →
        Descends runtimeSize (path ++ [name]) value s s')
    (h : visitVyperEntry descend runtimeSize (dotted path) s (name, value) = .ok s') :
    Walked runtimeSize path [(name, value)] s s' := by
  obtain ⟨_, hname, h⟩ := bind_eq_ok.mp h
  obtain ⟨_, hsize, h⟩ := bind_eq_ok.mp h
  obtain ⟨fields, hfields, h⟩ := bind_eq_ok.mp h
  rw [failIf_eq_ok, not_or] at hname
  rw [failIf_eq_ok, ← dotted_append, not_lt] at hsize
  rw [← dotted_append] at h
  obtain ⟨rfl, hstrict⟩ := decodeRawJSONObject_eq_ok.mp hfields
  have hall : ∀ n ∈ path ++ [name], PlainName n := by
    intro n hn
    rcases mem_append.mp hn with hn | hn
    · exact hnames n hn
    · rw [mem_singleton.mp hn]
      exact hname
  cases htype : layoutType fields.entries with
  | none =>
    -- an object without a type is a module, which is descended into
    have hinner : isLayoutLeaf (.object fields.entries) = false := by
      rw [isLayoutLeaf, htype]
      rfl
    simp only [htype] at h
    obtain ⟨members, hmembers, hlen, hcount, hwalked⟩ := hdescend hall _ _ h
    cases hmembers
    refine ⟨?_, ?_, hwalked.count⟩
    · intro node hnode
      rw [nodesOf_singleton, entryNodes_inner hinner] at hnode
      rcases mem_cons.mp hnode with rfl | hnode
      · exact ⟨hall, hsize, fun hl => absurd (hinner.symm.trans hl) Bool.false_ne_true,
          fun _ => ⟨_, rfl, hlen, hcount⟩⟩
      · exact hwalked.nodes node hnode
    · rw [nodesOf_singleton, leavesOf_inner hinner]
      exact hwalked.added
  | some type =>
    -- an object with a type is an immutable
    have hleaf : isLayoutLeaf (.object fields.entries) = true := by
      rw [isLayoutLeaf, htype]
      rfl
    simp only [htype] at h
    obtain ⟨span, hspan, h⟩ := bind_eq_ok.mp h
    obtain ⟨_, hcount, h⟩ := bind_eq_ok.mp h
    rw [failIf_eq_ok, not_lt] at hcount
    have hs := pure_eq_ok.mp h
    subst hs
    refine ⟨?_, ⟨[(path ++ [name], span)], ?_, rfl⟩, fun _ => hcount⟩
    · intro node hnode
      rw [nodesOf_singleton, entryNodes_leaf hleaf, mem_singleton] at hnode
      subst hnode
      exact ⟨hall, hsize,
        fun _ => ⟨_, span, rfl, (vyperLeaf_eq_ok fields.nodup htype).mp hspan⟩,
        fun hl => absurd (hl.symm.trans hleaf) Bool.false_ne_true⟩
    · rw [nodesOf_singleton, leavesOf_leaf hleaf hspan]

/-- Members that are visited are walked. -/
theorem visitVyperEntries_ok (hnames : ∀ name ∈ path, PlainName name)
    (hdescend : ∀ name value, (∀ n ∈ path ++ [name], PlainName n) → ∀ s s',
      descend (dotted (path ++ [name])) value s = .ok s' →
        Descends runtimeSize (path ++ [name]) value s s')
    (h : members.foldlM (visitVyperEntry descend runtimeSize (dotted path)) s = .ok s') :
    Walked runtimeSize path members s s' := by
  induction members generalizing s with
  | nil =>
    cases h
    exact Walked.nil
  | cons entry rest ih =>
    obtain ⟨s1, hvisit, h⟩ := bind_eq_ok.mp h
    exact (visitVyperEntry_ok hnames (hdescend entry.1 entry.2) hvisit).append (ih h)

variable {walk : LayoutWalk}

variable {levels : Nat}

/-- **A walk that ends without an error** has met only nodes that are as they should
    be, and added their leaves. -/
theorem walkVyperLayout_ok {value : Value}
    (hlevels : path.length + levels = 33) (hnames : ∀ name ∈ path, PlainName name)
    (h : walkVyperLayout walk runtimeSize levels (dotted path) value s = .ok s') :
    value.strict maxStrictJSONDepth maxStrictJSONNodes = true
      ∧ Descends runtimeSize path value s s' := by
  induction levels generalizing path value s s' with
  | zero => cases h
  | succ levels ih =>
    obtain ⟨_, -, h⟩ := bind_eq_ok.mp h
    obtain ⟨entries, hentries, h⟩ := bind_eq_ok.mp h
    obtain ⟨_, hsize, hloop⟩ := bind_eq_ok.mp h
    rw [failIf_eq_ok, not_lt] at hsize
    obtain ⟨rfl, hstrict⟩ := decodeRawJSONObject_eq_ok.mp hentries
    refine ⟨hstrict, entries.entries, rfl, by omega, hsize, ?_⟩
    refine (visitVyperEntries_ok hnames ?_ hloop).perm (walk.order_perm _ _)
    intro name value hall s s' hs
    have hlen : (path ++ [name]).length + levels = 33 := by
      rw [length_append, length_singleton]
      omega
    exact (ih hlen hall hs).2

/-- One round of the loop on a node that is as it should be. -/
theorem visitVyperEntry_complete {value : Value}
    (hstrict : value.strict maxStrictJSONDepth maxStrictJSONNodes = true)
    (hnodes : ∀ node ∈ nodesOf path [(name, value)], LayoutNodeOk node)
    (hcount : s.refs.size + (leavesOf (nodesOf path [(name, value)])).length ≤ 4096)
    (hdescend : ∀ members, value = .object members → path.length + 1 ≤ 32 →
      members.length ≤ 4096 →
      (∀ node ∈ nodesOf (path ++ [name]) members, LayoutNodeOk node) →
      s.refs.size + (leavesOf (nodesOf (path ++ [name]) members)).length ≤ 4096 →
      ∃ s', descend (dotted (path ++ [name])) value s = .ok s') :
    ∃ s', visitVyperEntry descend runtimeSize (dotted path) s (name, value) = .ok s' := by
  rw [nodesOf_singleton] at hnodes hcount
  have hnode : LayoutNodeOk (path ++ [name], value) := hnodes _ mem_cons_self
  have hname : PlainName name := hnode.names name (mem_append_right _ mem_cons_self)
  have hsize := hnode.id_size
  unfold visitVyperEntry
  simp only [← dotted_append]
  rw [failIf, if_neg (not_or.mpr hname), failIf, if_neg (not_lt.mpr hsize)]
  simp only [bind, Except.bind]
  cases hleaf : isLayoutLeaf value with
  | false =>
    -- a module within the bounds is descended into
    obtain ⟨members, rfl, hlen, hmembers⟩ := hnode.inner hleaf
    have hfields : decodeRawJSONObject (.object members)
        = .ok ⟨members, Value.nodup_of_strict hstrict⟩ :=
      decodeRawJSONObject_eq_ok.mpr ⟨rfl, hstrict⟩
    have htype : layoutType members = none := by
      exact Option.isSome_eq_false_iff.mp hleaf |> Option.isNone_iff_eq_none.mp
    rw [hfields]
    simp only [htype]
    rw [leavesOf_inner hleaf] at hcount
    rw [entryNodes_inner hleaf] at hnodes
    simp only [length_append, length_singleton] at hlen
    exact hdescend members rfl hlen hmembers
      (fun node hn => hnodes node (mem_cons_of_mem _ hn)) hcount
  | true =>
    obtain ⟨members, span, rfl, hitem⟩ := hnode.leaf hleaf
    have hfields : decodeRawJSONObject (.object members)
        = .ok ⟨members, Value.nodup_of_strict hstrict⟩ :=
      decodeRawJSONObject_eq_ok.mpr ⟨rfl, hstrict⟩
    obtain ⟨type, htype⟩ : ∃ type, layoutType members = some type := by
      rw [isLayoutLeaf] at hleaf
      exact Option.isSome_iff_exists.mp hleaf
    have hspan : vyperLeaf members = .ok span :=
      (vyperLeaf_eq_ok (Value.nodup_of_strict hstrict) htype).mpr hitem
    rw [leavesOf_leaf hleaf hspan, length_singleton] at hcount
    -- an immutable adds one reference, for which there is room
    have hadd : (s.add runtimeSize (dotted (path ++ [name])) span).refs.size ≤ 4096 :=
      (GoMap.size_insert_le _ _ _).trans hcount
    rw [hfields]
    simp only [htype, hspan]
    rw [failIf, if_neg (not_lt.mpr hadd)]
    exact ⟨_, rfl⟩

theorem nodesOf_cons (path : List String) (entry : String × Value) (rest : Members) :
    nodesOf path (entry :: rest) = nodesOf path [entry] ++ nodesOf path rest := by
  rw [nodesOf_singleton, nodesOf_eq_flatMap, flatMap_cons, nodesOf_eq_flatMap]

/-- Members whose nodes are in order are visited. -/
theorem visitVyperEntries_complete (hnames : ∀ name ∈ path, PlainName name)
    (hsound : ∀ name value, (∀ n ∈ path ++ [name], PlainName n) → ∀ s s',
      descend (dotted (path ++ [name])) value s = .ok s' →
        Descends runtimeSize (path ++ [name]) value s s')
    (hdescend : ∀ name inner s, LayoutNodeOk (path ++ [name], .object inner) →
      (Value.object inner).strict maxStrictJSONDepth maxStrictJSONNodes = true →
      path.length + 1 ≤ 32 → inner.length ≤ 4096 →
      (∀ node ∈ nodesOf (path ++ [name]) inner, LayoutNodeOk node) →
      s.refs.size + (leavesOf (nodesOf (path ++ [name]) inner)).length ≤ 4096 →
      ∃ s', descend (dotted (path ++ [name])) (.object inner) s = .ok s')
    (hstrict : ∀ m ∈ members, m.2.strict maxStrictJSONDepth maxStrictJSONNodes = true)
    (hnodes : ∀ node ∈ nodesOf path members, LayoutNodeOk node)
    (hcount : s.refs.size + (leavesOf (nodesOf path members)).length ≤ 4096) :
    ∃ s', members.foldlM (visitVyperEntry descend runtimeSize (dotted path)) s = .ok s' := by
  induction members generalizing s with
  | nil => exact ⟨s, rfl⟩
  | cons entry rest ih =>
    obtain ⟨name, value⟩ := entry
    rw [nodesOf_cons] at hnodes hcount
    rw [leavesOf, filterMap_append, length_append] at hcount
    have hvalue := hstrict _ mem_cons_self
    have hfirst : ∀ node ∈ nodesOf path [(name, value)], LayoutNodeOk node :=
      fun node hn => hnodes node (mem_append_left _ hn)
    obtain ⟨s1, hs1⟩ : ∃ s1,
        visitVyperEntry descend runtimeSize (dotted path) s (name, value) = .ok s1 := by
      refine visitVyperEntry_complete hvalue hfirst ?_ ?_
      · unfold leavesOf
        omega
      · intro inner hinner hdepth hmembers hbelow hleaves
        subst hinner
        have hself : LayoutNodeOk (path ++ [name], .object inner) := hfirst _ (by
          rw [nodesOf_singleton]
          exact mem_cons_self)
        exact hdescend name inner s hself hvalue hdepth hmembers hbelow hleaves
    -- the leaves of the first entry are the only ones it has added
    have hsize := (visitVyperEntry_ok hnames (hsound name value) hs1).size_le
    unfold leavesOf at hsize
    obtain ⟨s', hs'⟩ := @ih s1 (fun m hm => hstrict m (mem_cons_of_mem _ hm))
      (fun node hn => hnodes node (mem_append_right _ hn)) (by unfold leavesOf; omega)
    refine ⟨s', ?_⟩
    rw [foldlM_cons, hs1]
    exact hs'

/-- **The walk ends without an error** where every node is as it should be and the
    leaves are not too many. -/
theorem walkVyperLayout_complete (hlevels : path.length + levels = 33) (hdepth : path.length ≤ 32)
    (hnames : ∀ name ∈ path, PlainName name)
    (hstrict : (Value.object members).strict maxStrictJSONDepth maxStrictJSONNodes = true)
    (hmembers : members.length ≤ 4096) (hnodes : ∀ node ∈ nodesOf path members,
      LayoutNodeOk node)
    (hcount : s.refs.size + (leavesOf (nodesOf path members)).length ≤ 4096) :
    ∃ s', walkVyperLayout walk runtimeSize levels (dotted path) (.object members) s = .ok s' := by
  induction levels generalizing path members s with
  | zero => omega
  | succ levels ih =>
    have hlen : ∀ name, (path ++ [name]).length + levels = 33 := by
      intro name
      rw [length_append, length_singleton]
      omega
    have hentries : decodeRawJSONObject (.object members)
        = .ok ⟨members, Value.nodup_of_strict hstrict⟩ :=
      decodeRawJSONObject_eq_ok.mpr ⟨rfl, hstrict⟩
    have hperm := walk.order_perm (dotted path) members
    have hpermNodes := nodesOf_perm hperm path
    obtain ⟨s', hs'⟩ : ∃ s', (walk.order (dotted path) members).foldlM (visitVyperEntry
        (walkVyperLayout walk runtimeSize levels) runtimeSize (dotted path)) s = .ok s' :=
      visitVyperEntries_complete hnames
      (fun name value hall s s' hs =>
        (walkVyperLayout_ok (hlen name) hall hs).2)
      (fun name inner s hself hstrict hd hm hn hc =>
        ih (hlen name) (by rw [length_append, length_singleton]; exact hd)
          hself.names hstrict hm hn hc)
      (fun m hm => Value.strict_member hstrict (hperm.mem_iff.mp hm))
      (fun node hn => hnodes node (hpermNodes.mem_iff.mp hn))
      (by
        rw [leavesOf, (hpermNodes.filterMap leafRange).length_eq]
        exact hcount)
    refine ⟨s', ?_⟩
    rw [walkVyperLayout]
    exact bind_eq_ok.mpr ⟨(), failIf_eq_ok.mpr (by omega),
      bind_eq_ok.mpr ⟨_, hentries, bind_eq_ok.mpr
        ⟨(), failIf_eq_ok.mpr (not_lt.mpr hmembers), hs'⟩⟩⟩

end Walk

/-! ## The section -/

/-- The nodes of a code layout below its root. -/
def layoutNodes (members : Members) : List LayoutNode := nodesOf [] members

/-- The leaves of a layout. -/
def layoutLeaves (members : Members) : List (List String × BytecodeRange) :=
  leavesOf (layoutNodes members)

/-- The layouts that are accepted with a section of the given size. -/
structure LayoutAccepted (members : Members) (runtimeBytes size : Nat) : Prop where
  strict : (Value.object members).strict maxStrictJSONDepth maxStrictJSONNodes = true
  root_size : members.length ≤ 4096
  nodes : ∀ node ∈ layoutNodes members, LayoutNodeOk node
  count : (layoutLeaves members).length ≤ 4096
  tiles : Tiles ((layoutLeaves members).map Prod.snd) 0 size
  limit : size + runtimeBytes ≤ maxMatcherBytecodeBytes

section Section

variable {members : Members}

/-- A leaf of nodes that are in order. -/
theorem leaf_of_mem {nodes : List LayoutNode} (hnodes : ∀ node ∈ nodes, LayoutNodeOk node)
    {leaf : List String × BytecodeRange} (h : leaf ∈ leavesOf nodes) :
    ∃ node ∈ nodes, node.1 = leaf.1 ∧ ∃ members, node.2 = .object members
      ∧ LeafItem members leaf.2 := by
  obtain ⟨node, hnode, hrange⟩ := mem_filterMap.mp h
  obtain ⟨path, value⟩ := node
  refine ⟨(path, value), hnode, ?_⟩
  cases hleaf : isLayoutLeaf value with
  | false =>
    rw [leafRange_inner hleaf] at hrange
    cases hrange
  | true =>
    obtain ⟨members, span, hmembers, hitem⟩ := (hnodes _ hnode).leaf hleaf
    subst hmembers
    rw [leafRange_leaf hleaf hitem.vyperLeaf_eq] at hrange
    cases hrange
    exact ⟨rfl, members, rfl, hitem⟩

/-- The names of the leaves are distinct. -/
theorem nodup_leaf_names
    (hstrict : (Value.object members).strict maxStrictJSONDepth maxStrictJSONNodes = true)
    (hnodes : ∀ node ∈ layoutNodes members, LayoutNodeOk node) :
    ((layoutLeaves members).map fun leaf => dotted leaf.1).Nodup := by
  have hunique := (Value.strict_iff.mp hstrict).2.2
  have hpaths : ((layoutNodes members).map Prod.fst).Nodup := nodup_nodesOf [] hunique
  have hleaves : ((layoutLeaves members).map Prod.fst).Nodup := by
    -- the paths of the leaves are some of the paths of the nodes
    refine hpaths.sublist ?_
    unfold layoutLeaves leavesOf
    generalize layoutNodes members = nodes
    induction nodes with
    | nil => exact List.Sublist.slnil
    | cons node rest ih =>
      cases hrange : leafRange node with
      | none =>
        rw [filterMap_cons_none hrange, map_cons]
        exact ih.cons _
      | some leaf =>
        rw [filterMap_cons_some hrange, map_cons, map_cons, leafRange_path hrange]
        exact ih.cons_cons _
  rw [← Function.comp_def dotted Prod.fst, ← map_map]
  refine List.Nodup.map_on ?_ hleaves
  intro path hpath path' hpath' heq
  obtain ⟨leaf, hleaf, rfl⟩ := mem_map.mp hpath
  obtain ⟨leaf', hleaf', rfl⟩ := mem_map.mp hpath'
  obtain ⟨node, hnode, hfst, -⟩ := leaf_of_mem hnodes hleaf
  obtain ⟨node', hnode', hfst', -⟩ := leaf_of_mem hnodes hleaf'
  rw [← hfst, ← hfst'] at heq ⊢
  obtain ⟨_, _, -, hpath⟩ := path_of_mem_nodesOf hnode
  obtain ⟨_, _, -, hpath'⟩ := path_of_mem_nodesOf hnode'
  exact dotted_injective (by rw [hpath]; exact cons_ne_nil _ _)
    (by rw [hpath']; exact cons_ne_nil _ _) (hnodes node hnode).names
    (hnodes node' hnode').names heq

variable {ranges : List BytecodeRange}

/-- On ranges within the code limit the sum does not wrap. -/
theorem vyperSectionSize_eq_sweep
    (h : ∀ r ∈ ranges, r.stop ≤ maxMatcherBytecodeBytes) (size : Nat) :
    vyperSectionSize size ranges = sweep size ranges := by
  induction ranges generalizing size with
  | nil => rfl
  | cons span rest ih =>
    rw [vyperSectionSize, sweep]
    by_cases hstart : span.start = size
    · have hstop := h span mem_cons_self
      unfold Region.stop maxMatcherBytecodeBytes at hstop
      rw [if_neg (fun hne => hne hstart), if_neg (fun hne => hne hstart),
        Nat.mod_eq_of_lt (by omega)]
      exact ih (fun r hr => h r (mem_cons_of_mem _ hr)) _
    · rw [if_pos hstart, if_pos hstart]

/-- **Which section the sorted ranges make.** -/
theorem vyperSectionSize_eq_some (walk : LayoutWalk)
    (hnodes : ∀ node ∈ layoutNodes members, LayoutNodeOk node)
    (hranges : ranges.Perm ((layoutLeaves members).map Prod.snd)) {size : Nat} :
    vyperSectionSize 0 (walk.sort ranges) = some size ↔
      Tiles ((layoutLeaves members).map Prod.snd) 0 size := by
  have hperm := (walk.sort_perm ranges).trans hranges
  have hitem : ∀ r ∈ walk.sort ranges, 0 < r.length ∧ r.stop ≤ maxMatcherBytecodeBytes := by
    intro r hr
    obtain ⟨leaf, hleaf, rfl⟩ := mem_map.mp (hperm.mem_iff.mp hr)
    obtain ⟨_, _, -, _, -, hitem⟩ := leaf_of_mem hnodes hleaf
    exact ⟨hitem.positive, hitem.bounded⟩
  rw [vyperSectionSize_eq_sweep (fun r hr => (hitem r hr).2),
    sweep_eq_some (walk.sort_sorted ranges) (fun r hr => (hitem r hr).1)]
  exact ⟨fun h => h.perm hperm, fun h => h.perm hperm.symm⟩

/-- A section that is tiled by leaves keeps the limit. -/
theorem section_le_limit (hnodes : ∀ node ∈ layoutNodes members, LayoutNodeOk node) {size : Nat}
    (htiles : Tiles ((layoutLeaves members).map Prod.snd) 0 size) :
    size ≤ maxMatcherBytecodeBytes := by
  rcases Nat.eq_zero_or_pos size with rfl | hpos
  · exact Nat.zero_le _
  · obtain ⟨r, hr, hhas⟩ := (htiles.covered (size - 1)).mpr ⟨Nat.zero_le _, by omega⟩
    obtain ⟨leaf, hleaf, rfl⟩ := mem_map.mp hr
    obtain ⟨_, _, -, _, -, hitem⟩ := leaf_of_mem hnodes hleaf
    have hstop := hhas.2
    have hbounded := hitem.bounded
    omega

end Section

/-! ## Results -/

section Results

variable {walk : LayoutWalk} {root members : Members} {runtimeBytes size : Nat}
  {refs : ImmutableReferences}

/-- What an accepted layout was, and what was returned for it. -/
theorem vyperImmutableLayout_ok (hcode : codeLayout root = some (.object members))
    (hruntime : runtimeBytes < 2 ^ 63)
    (h : vyperImmutableLayout walk (.object root) runtimeBytes = .ok (size, refs)) :
    LayoutAccepted members runtimeBytes size
      ∧ refs.entries.Perm ((layoutLeaves members).map (leafEntry runtimeBytes)) := by
  unfold vyperImmutableLayout at h
  simp only [hcode] at h
  obtain ⟨s, hwalk, h⟩ := bind_eq_ok.mp h
  obtain ⟨hstrict, _, hobject, -, hmembers, hwalked⟩ :=
    @walkVyperLayout_ok runtimeBytes [] _ _ walk 33 _ rfl (fun name hname => (by cases hname)) hwalk
  cases hobject
  have hnodes : ∀ node ∈ layoutNodes members, LayoutNodeOk node := hwalked.nodes
  have hcount := hwalked.count (Nat.zero_le _)
  obtain ⟨leaves, hleaves, rfl⟩ := hwalked.added
  replace hleaves : leaves.Perm (layoutLeaves members) := hleaves
  -- the names are distinct, so that no reference replaces another one
  have hentries : ((⟨GoMap.empty, []⟩ : LayoutState).addAll runtimeBytes leaves).refs.entries
      = leaves.map (leafEntry runtimeBytes) := by
    rw [LayoutState.addAll_refs, GoMap.entries_insertAll]
    · rfl
    · show ((leaves.map (leafEntry runtimeBytes)).map Prod.fst).Nodup
      rw [map_map]
      exact ((hleaves.map _).nodup_iff).mpr (nodup_leaf_names hstrict hnodes)
  have hranges : ((⟨GoMap.empty, []⟩ : LayoutState).addAll runtimeBytes leaves).ranges
      = leaves.map Prod.snd := LayoutState.addAll_ranges _ _ _
  cases hsize : vyperSectionSize 0
      (walk.sort ((⟨GoMap.empty, []⟩ : LayoutState).addAll runtimeBytes leaves).ranges) with
  | none =>
    rw [hsize] at h
    cases h
  | some total =>
    simp only [hsize] at h
    obtain ⟨_, hlimit, h⟩ := bind_eq_ok.mp h
    have hres := pure_eq_ok.mp h
    cases hres
    rw [hranges] at hsize
    have htiles := (vyperSectionSize_eq_some walk hnodes (hleaves.map _)).mp hsize
    rw [failIf_eq_ok, not_lt] at hlimit
    refine ⟨⟨hstrict, hmembers, hnodes, ?_, htiles, ?_⟩, ?_⟩
    · unfold GoMap.size at hcount
      rw [hentries, length_map, hleaves.length_eq] at hcount
      exact hcount
    · have hle := section_le_limit hnodes htiles
      unfold maxMatcherBytecodeBytes at hle
      rwa [Nat.mod_eq_of_lt (by omega)] at hlimit
    · rw [hentries]
      exact hleaves.map _

/-- A layout that is in order is accepted. -/
theorem LayoutAccepted.accepted (h : LayoutAccepted members runtimeBytes size)
    (hcode : codeLayout root = some (.object members)) :
    ∃ refs, vyperImmutableLayout walk (.object root) runtimeBytes = .ok (size, refs) := by
  obtain ⟨s, hwalk⟩ :=
    @walkVyperLayout_complete runtimeBytes [] members ⟨GoMap.empty, []⟩ walk 33
    rfl (Nat.zero_le _) (fun name hname => (by cases hname)) h.strict h.root_size h.nodes
    (by rw [GoMap.size, GoMap.empty]; exact (zero_add _).trans_le h.count)
  obtain ⟨-, _, hobject, -, -, hwalked⟩ :=
    @walkVyperLayout_ok runtimeBytes [] _ _ walk 33 _ rfl (fun name hname => (by cases hname)) hwalk
  cases hobject
  obtain ⟨leaves, hleaves, rfl⟩ := hwalked.added
  replace hleaves : leaves.Perm (layoutLeaves members) := hleaves
  have hsize : vyperSectionSize 0 (walk.sort
      ((⟨GoMap.empty, []⟩ : LayoutState).addAll runtimeBytes leaves).ranges) = some size := by
    rw [LayoutState.addAll_ranges]
    exact (vyperSectionSize_eq_some walk h.nodes (hleaves.map _)).mpr h.tiles
  have hlimit := h.limit
  refine ⟨((⟨GoMap.empty, []⟩ : LayoutState).addAll runtimeBytes leaves).refs, ?_⟩
  unfold vyperImmutableLayout
  simp only [hcode]
  refine bind_eq_ok.mpr ⟨_, hwalk, ?_⟩
  simp only [hsize]
  refine bind_eq_ok.mpr ⟨(), failIf_eq_ok.mpr ?_, rfl⟩
  exact not_lt.mpr (le_trans (Nat.mod_le _ _) hlimit)

/-- The ranges of the references. -/
def referenceRanges (refs : ImmutableReferences) : List BytecodeRange :=
  refs.entries.flatMap Prod.snd

section

variable (h : LayoutAccepted members runtimeBytes size) (hruntime : runtimeBytes < 2 ^ 63)
include h hruntime

/-- The references of an accepted layout: one range for each leaf, behind the runtime
    code. -/
theorem LayoutAccepted.entries : (layoutLeaves members).map (leafEntry runtimeBytes)
      = (layoutLeaves members).map fun leaf =>
          (dotted leaf.1, [⟨runtimeBytes + leaf.2.start, leaf.2.length⟩]) := by
  refine map_congr_left (fun leaf hleaf => ?_)
  obtain ⟨_, _, -, _, -, hitem⟩ := leaf_of_mem h.nodes hleaf
  have hbounded := hitem.bounded
  unfold Region.stop maxMatcherBytecodeBytes at hbounded
  rw [leafEntry, Nat.mod_eq_of_lt (by omega)]

section

variable (hrefs : refs.entries.Perm ((layoutLeaves members).map (leafEntry runtimeBytes)))
include hrefs

/-- The references are the leaves, moved behind the runtime code. -/
theorem LayoutAccepted.ranges :
    (referenceRanges refs).Perm
      (((layoutLeaves members).map Prod.snd).map fun r =>
        ⟨runtimeBytes + r.start, r.length⟩) := by
  rw [h.entries hruntime] at hrefs
  refine (hrefs.flatMap_right _).trans ?_
  rw [flatMap_map, map_map, map_eq_flatMap]
  exact List.Perm.refl _

/-- The ranges of the references tile the section behind the runtime code, and pass
    the validation of ranges on the code that is extended by the section. -/
theorem LayoutAccepted.section : Tiles (referenceRanges refs) runtimeBytes (runtimeBytes + size)
      ∧ validateRanges (referenceRanges refs) (runtimeBytes + size) = .ok () := by
  have hperm := h.ranges hruntime hrefs
  have htiles : Tiles (referenceRanges refs) runtimeBytes (runtimeBytes + size) :=
    (h.tiles.shift runtimeBytes).perm hperm.symm
  have hpos : ∀ r ∈ referenceRanges refs, 0 < r.length := by
    intro r hr
    obtain ⟨span, hspan, rfl⟩ := mem_map.mp (hperm.mem_iff.mp hr)
    obtain ⟨leaf, hleaf, rfl⟩ := mem_map.mp hspan
    obtain ⟨_, _, -, _, -, hitem⟩ := leaf_of_mem h.nodes hleaf
    exact hitem.positive
  refine ⟨htiles, validateRanges_eq_ok.mpr ⟨?_, ?_, htiles.apart⟩⟩
  · rw [hperm.length_eq, length_map, length_map]
    exact h.count
  · intro r hr
    exact ⟨hpos r hr, (htiles.start_mem hr (hpos r hr)).2⟩

end

end

end Results

/-! ## Errors -/

/-- The only error is malformed compiler output. -/
def OnlyMalformed {α : Type} (x : Except VerifyError α) : Prop :=
  ∀ e, x = .error e → e = .compilerOutputMalformed

namespace OnlyMalformed

variable {α : Type}

theorem ok (a : α) : OnlyMalformed (.ok a) := fun _ h => by cases h

theorem malformed : OnlyMalformed (.error .compilerOutputMalformed : Except VerifyError α) := by
  rintro e ⟨⟩
  rfl

theorem failIf (c : Prop) [Decidable c] :
    OnlyMalformed (Transact.failIf c VerifyError.compilerOutputMalformed) := by
  unfold Transact.failIf
  split
  · exact malformed
  · exact ok ()

theorem bind {β : Type} {x : Except VerifyError α} {f : α → Except VerifyError β}
    (hx : OnlyMalformed x) (hf : ∀ a, OnlyMalformed (f a)) : OnlyMalformed (x >>= f) := by
  intro e h
  cases x with
  | error e' => exact hx e (by cases h; rfl)
  | ok a => exact hf a e h

theorem foldlM {β : Type} {f : β → α → Except VerifyError β}
    (hf : ∀ b a, OnlyMalformed (f b a))
    (l : List α) (b : β) : OnlyMalformed (l.foldlM f b) := by
  induction l generalizing b with
  | nil => exact ok b
  | cons a rest ih =>
    rw [foldlM_cons]
    exact bind (hf b a) ih

end OnlyMalformed

/-- A strict object fails as malformed output only. -/
theorem onlyMalformed_decodeRawJSONObject (raw : Value) :
    OnlyMalformed (decodeRawJSONObject raw) := by
  unfold decodeRawJSONObject
  split
  · exact OnlyMalformed.ok _
  · exact OnlyMalformed.malformed

/-- A leaf fails as malformed output only. -/
theorem onlyMalformed_vyperLeaf (members : Members) : OnlyMalformed (vyperLeaf members) := by
  unfold vyperLeaf
  split
  · exact .bind (.failIf _) fun _ => .bind (.failIf _) fun _ => .ok _
  · exact OnlyMalformed.malformed

/-- A walk fails as malformed output only. -/
theorem onlyMalformed_walkVyperLayout (walk : LayoutWalk) (runtimeSize levels : Nat)
    (parent : String) (raw : Value) (s : LayoutState) :
    OnlyMalformed (walkVyperLayout walk runtimeSize levels parent raw s) := by
  induction levels generalizing parent raw s with
  | zero => exact OnlyMalformed.malformed
  | succ levels ih =>
    rw [walkVyperLayout]
    refine .bind (.failIf _) fun _ => .bind (onlyMalformed_decodeRawJSONObject raw) fun entries =>
      .bind (.failIf _) fun _ => .foldlM ?_ _ _
    rintro s ⟨name, value⟩
    refine .bind (.failIf _) fun _ => .bind (.failIf _) fun _ =>
      .bind (onlyMalformed_decodeRawJSONObject value) fun fields => ?_
    split
    · exact ih _ _ _
    · exact .bind (onlyMalformed_vyperLeaf _) fun _ => .bind (.failIf _) fun _ => .ok _

/-- Every failure is the same one. -/
theorem onlyMalformed_vyperImmutableLayout (walk : LayoutWalk) (raw : Value)
    (runtimeBytes : Nat) : OnlyMalformed (vyperImmutableLayout walk raw runtimeBytes) := by
  unfold vyperImmutableLayout
  split
  · refine .bind ?_ fun s => ?_
    · unfold walkCodeLayout
      split
      · exact onlyMalformed_walkVyperLayout _ _ _ _ _ _
      · exact .ok _
    · split
      · exact .bind (.failIf _) fun _ => .ok _
      · exact .malformed
  · exact .malformed

/-- Two outcomes that differ at most in the order of the references. -/
def SameLayout : Except VerifyError (Nat × ImmutableReferences) →
    Except VerifyError (Nat × ImmutableReferences) → Prop
  | .ok (size, refs), .ok (size', refs') => size = size' ∧ refs.Same refs'
  | .error e, .error e' => e = e'
  | _, _ => False

/-- **Which code layouts are accepted, what is returned for them, and that no order of
    a walk shows.** -/
theorem vyper_layout_accepted_iff (walk : LayoutWalk) {root members : Members}
    {runtimeBytes : Nat} (hcode : codeLayout root = some (.object members))
    (hruntime : runtimeBytes < 2 ^ 63) :
    (∀ size, (∃ refs, vyperImmutableLayout walk (.object root) runtimeBytes = .ok (size, refs))
        ↔ LayoutAccepted members runtimeBytes size)
      ∧ (∀ size refs, vyperImmutableLayout walk (.object root) runtimeBytes
        = .ok (size, refs) →
        ((layoutLeaves members).map fun leaf => dotted leaf.1).Nodup
          ∧ refs.entries.Perm ((layoutLeaves members).map fun leaf =>
              (dotted leaf.1, [⟨runtimeBytes + leaf.2.start, leaf.2.length⟩]))
          ∧ Tiles (referenceRanges refs) runtimeBytes (runtimeBytes + size)
          ∧ ∀ code extension : List Hex.Byte, code.length = runtimeBytes →
              extension.length = size →
              validateRanges (referenceRanges refs) (code ++ extension).length = .ok ())
      ∧ ∀ walk', SameLayout (vyperImmutableLayout walk (.object root) runtimeBytes)
          (vyperImmutableLayout walk' (.object root) runtimeBytes) := by
  have hiff : ∀ walk' size, (∃ refs,
      vyperImmutableLayout walk' (.object root) runtimeBytes = .ok (size, refs))
        ↔ LayoutAccepted members runtimeBytes size := by
    intro walk' size
    constructor
    · rintro ⟨refs, h⟩
      exact (vyperImmutableLayout_ok hcode hruntime h).1
    · intro h
      exact h.accepted hcode
  refine ⟨hiff walk, ?_, ?_⟩
  · intro size refs h
    obtain ⟨haccepted, hrefs⟩ := vyperImmutableLayout_ok hcode hruntime h
    obtain ⟨htiles, hvalid⟩ := haccepted.section hruntime hrefs
    refine ⟨nodup_leaf_names haccepted.strict haccepted.nodes, ?_, htiles, ?_⟩
    · rw [← haccepted.entries hruntime]
      exact hrefs
    · intro code extension hlen hext
      rw [length_append, hlen, hext]
      exact hvalid
  · intro walk'
    -- each success of one walk is a success of the other, and every failure is the same
    cases h : vyperImmutableLayout walk (.object root) runtimeBytes with
    | ok result =>
      obtain ⟨size, refs⟩ := result
      obtain ⟨haccepted, hrefs⟩ := vyperImmutableLayout_ok hcode hruntime h
      obtain ⟨refs', h'⟩ := (hiff walk' size).mpr haccepted
      rw [h']
      exact ⟨rfl, hrefs.trans (vyperImmutableLayout_ok hcode hruntime h').2.symm⟩
    | error e =>
      cases h' : vyperImmutableLayout walk' (.object root) runtimeBytes with
      | ok result =>
        obtain ⟨size, refs⟩ := result
        obtain ⟨refs', hok⟩ :=
          (hiff walk size).mpr (vyperImmutableLayout_ok hcode hruntime h').1
        rw [h] at hok
        cases hok
      | error e' =>
        exact (onlyMalformed_vyperImmutableLayout _ _ _ _ h).trans
          (onlyMalformed_vyperImmutableLayout _ _ _ _ h').symm

/-! ## Examples -/

instance : Std.Total (fun r s : BytecodeRange => r.start ≤ s.start) where
  total := fun r s => Nat.le_total r.start s.start

instance : IsTrans BytecodeRange (fun r s : BytecodeRange => r.start ≤ s.start) where
  trans := fun _ _ _ h h' => Nat.le_trans h h'

/-- The walk in the order of the text, with a sort by insertion. -/
def textOrder : LayoutWalk where
  order := fun _ members => members
  order_perm := fun _ _ => List.Perm.refl _
  sort := fun ranges => ranges.insertionSort fun r s => r.start ≤ s.start
  sort_perm := fun ranges => List.perm_insertionSort _ ranges
  sort_sorted := fun ranges => List.pairwise_insertionSort _ ranges

/-- A leaf as the compiler writes it. -/
def exampleLeaf (offset length : String) : Value :=
  .object [("length", .number length), ("offset", .number offset), ("type", .text "uint256")]

/-- Two immutables, one of them in a module. -/
def moduleLayout : Members :=
  [("lib", .object [("fee", exampleLeaf "32" "64")]), ("owner", exampleLeaf "0" "32")]

theorem codeLayout_named (code : Value) : codeLayout [("code_layout", code)] = some code := by
  have hname : namesField "code_layout" "code_layout" = true := by decide +kernel
  simp [codeLayout, hname]

/-- The layout of a module with immutables is accepted. -/
theorem module_layout_accepted :
    codeLayout [("code_layout", .object moduleLayout)] = some (.object moduleLayout)
      ∧ 100 < 2 ^ 63 ∧ LayoutAccepted moduleLayout 100 96 := by
  refine ⟨codeLayout_named _, by decide, ?_⟩
  refine ((vyper_layout_accepted_iff textOrder (codeLayout_named _) (by decide)).1 96).mp ?_
  exact ⟨⟨[("lib.fee", [⟨132, 64⟩]), ("owner", [⟨100, 32⟩])], by decide⟩, rfl⟩

/-- A leaf with a capital letter in the name of its offset. -/
def capitalLeaf : Members :=
  [("length", .number "32"), ("Offset", .number "0"), ("type", .text "uint256")]

/-- **A leaf without a member `offset`** is accepted. -/
theorem capital_offset_accepted : GoMap.find "offset" capitalLeaf = none
      ∧ (vyperImmutableLayout textOrder
          (.object [("code_layout", .object [("owner", .object capitalLeaf)])]) 100).toOption.map
            (fun result => (result.1, result.2.entries))
              = some (32, [("owner", [⟨100, 32⟩])]) :=
  ⟨rfl, by decide +kernel⟩

end Verify
