import Etherview.StoreCoverage
import Etherview.Texts

/-! # Arguments of the repository methods

    The argument checks of `internal/store/repository.go` and the segment,
    replacement and lease checks of `coverage.go`.  A check that also takes
    ownership of bundles returns the owned bundles with their references.

    Each check has one lemma that says what an accepted argument is
    (`validateCanonicalSegment_ok`, `ownReorg_ok`,
    `validateSparseCanonicalReplacement_ok`); the repository methods are then
    proved about accepted arguments and never unfold a check again.
    `validateBlockRef` accepts every reference and is left out. -/

namespace Store

open IntervalSet Transact List Fin Prod

variable {B H : Type}

/-! ## Linked reference lists -/

/-- `child` directly follows `parent`, without the height wrapping. -/
def Follows (parent child : BlockRef H) : Prop :=
  parent.number ≠ maxUint64 ∧ child.number = parent.number + 1
    ∧ child.parentHash = parent.hash

/-- A list of references from low to high, each following the one before. -/
def Linked (refs : List (BlockRef H)) : Prop := refs.IsChain Follows

theorem Follows.val_succ {parent child : BlockRef H} (h : Follows parent child) :
    child.number.val = parent.number.val + 1 := by
  rw [h.2.1]
  exact val_add_one h.1

variable {r : BlockRef H} {rest : List (BlockRef H)}

theorem Linked.tail (h : Linked (r :: rest)) : Linked rest := IsChain.tail h

variable {q : BlockRef H}

theorem Linked.head_follows (h : Linked (r :: q :: rest)) : Follows r q := IsChain.rel h

/-- The last element of a linked list lies as far above the first as the list is
    long. -/
theorem Linked.last_val (h : Linked (r :: rest)) :
    ((r :: rest).getLast (cons_ne_nil _ _)).number.val = r.number.val + rest.length := by
  induction rest generalizing r with
  | nil => rfl
  | cons q rest ih =>
    have hq := h.head_follows.val_succ
    rw [getLast_cons (cons_ne_nil _ _), ih h.tail, length_cons]
    omega

/-- A linked list visits exactly the heights between its ends. -/
theorem Linked.mem_iff (h : Linked (r :: rest)) (n : Uint64) : (∃ q ∈ r :: rest, q.number = n)
      ↔ r.number ≤ n ∧ n ≤ ((r :: rest).getLast (cons_ne_nil _ _)).number := by
  induction rest generalizing r with
  | nil =>
    simp only [mem_singleton, exists_eq_left, getLast_singleton]
    exact le_antisymm_iff
  | cons q rest ih =>
    have hq := h.head_follows.val_succ
    have hlast := h.tail.last_val
    have ih := ih h.tail
    rw [getLast_cons (cons_ne_nil _ _)]
    constructor
    · rintro ⟨p, hp, hn⟩
      rcases mem_cons.mp hp with rfl | hp
      · rw [← hn]
        refine ⟨le_rfl, ?_⟩
        rw [le_def]
        omega
      · obtain ⟨h1, h2⟩ := ih.mp ⟨p, hp, hn⟩
        refine ⟨?_, h2⟩
        rw [le_def] at h1 ⊢
        omega
    · rintro ⟨h1, h2⟩
      by_cases hn : r.number = n
      · exact ⟨r, mem_cons_self, hn⟩
      · have hlo : q.number ≤ n := by
          rw [le_def] at h1 ⊢
          have : r.number.val ≠ n.val := fun h => hn (Fin.ext h)
          omega
        obtain ⟨p, hp, hpn⟩ := ih.mpr ⟨hlo, h2⟩
        exact ⟨p, mem_cons_of_mem _ hp, hpn⟩

/-- Heights of a linked list start at the first one. -/
theorem Linked.le_of_mem (h : Linked (r :: rest)) (hq : q ∈ r :: rest) : r.number ≤ q.number :=
  ((h.mem_iff q.number).mp ⟨q, hq, rfl⟩).1

variable {refs : List (BlockRef H)}

section

variable (h : Linked refs)
include h

variable {p q : BlockRef H}

/-- A linked list holds one reference per height. -/
theorem Linked.eq_of_number (hp : p ∈ refs) (hq : q ∈ refs) (hn : p.number = q.number) :
    p = q := by
  induction refs with
  | nil => cases hp
  | cons r rest ih =>
    -- everything behind the head lies strictly above it
    have habove : ∀ x ∈ rest, r.number < x.number := by
      intro x hx
      cases rest with
      | nil => cases hx
      | cons s rest =>
        have hs := h.head_follows.val_succ
        have hle := h.tail.le_of_mem hx
        rw [le_def] at hle
        rw [lt_def]
        omega
    rcases mem_cons.mp hp with hp' | hp' <;> rcases mem_cons.mp hq with hq' | hq'
    · rw [hp', hq']
    · exact absurd (habove q hq') (by rw [← hn, hp']; exact lt_irrefl _)
    · exact absurd (habove p hp') (by rw [hn, hq']; exact lt_irrefl _)
    · exact ih h.tail hp' hq'

/-- Neighbouring heights of a linked list are parent-linked. -/
theorem Linked.parent_of_succ
    (hp : p ∈ refs) (hq : q ∈ refs) (hn : q.number.val = p.number.val + 1) :
    q.parentHash = p.hash := by
  induction refs with
  | nil => cases hp
  | cons r rest ih =>
    rcases mem_cons.mp hq with rfl | hq'
    · have := h.le_of_mem hp
      rw [le_def] at this
      omega
    rcases mem_cons.mp hp with rfl | hp'
    · cases rest with
      | nil => cases hq'
      | cons s rest =>
        have hs := h.head_follows
        have hsq : s = q := by
          refine h.tail.eq_of_number mem_cons_self hq' (Fin.ext ?_)
          rw [hs.val_succ, hn]
        rw [← hsq]
        exact hs.2.2
    · exact ih h.tail hp' hq'

/-- Going one height up inside a linked branch stays in it or leaves its end. -/
theorem Linked.succ_mem_or_last (hr : r ∈ refs) (hmax : r.number ≠ maxUint64) :
    (∃ q ∈ refs, q.number = r.number + 1) ∨ refs.getLast? = some r := by
  cases refs with
  | nil => cases hr
  | cons first rest =>
    have hlast := getLast?_eq_some_getLast (cons_ne_nil first rest)
    obtain ⟨hlo, hhi⟩ := (h.mem_iff r.number).mp ⟨r, hr, rfl⟩
    by_cases heq : r.number = ((first :: rest).getLast (cons_ne_nil _ _)).number
    · refine .inr ?_
      rw [hlast, h.eq_of_number hr (getLast_mem _) heq]
    · refine .inl ((h.mem_iff (r.number + 1)).mpr ⟨?_, ?_⟩)
      · rw [le_def] at hlo ⊢
        rw [val_add_one hmax]
        omega
      · rw [le_def] at hhi ⊢
        rw [val_add_one hmax]
        have : r.number.val ≠ ((first :: rest).getLast (cons_ne_nil _ _)).number.val :=
          fun hv => heq (Fin.ext hv)
        omega

/-- Going one height down inside a linked branch stays in it or leaves its start. -/
theorem Linked.pred_mem_or_head
    (hr : r ∈ refs) {n : Uint64} (hmax : n ≠ maxUint64) (hn : n + 1 = r.number) :
    (∃ q ∈ refs, q.number = n) ∨ refs.head? = some r := by
  cases refs with
  | nil => cases hr
  | cons first rest =>
    obtain ⟨hlo, hhi⟩ := (h.mem_iff r.number).mp ⟨r, hr, rfl⟩
    have hv : r.number.val = n.val + 1 := by
      rw [← hn]
      exact val_add_one hmax
    by_cases heq : r.number = first.number
    · refine .inr ?_
      rw [head?_cons, h.eq_of_number hr mem_cons_self heq]
    · refine .inl ((h.mem_iff n).mpr ⟨?_, ?_⟩)
      · rw [le_def] at hlo ⊢
        have : r.number.val ≠ first.number.val := fun hv => heq (Fin.ext hv)
        omega
      · rw [le_def] at hhi ⊢
        omega

/-- The interval a linked branch spans is the set of its heights. -/
theorem Linked.spanOf_has (n : Uint64) :
    (∃ r ∈ spanOf refs, r.Has n) ↔ ∃ q ∈ refs, q.number = n := by
  cases refs with
  | nil =>
    constructor
    · rintro ⟨r, hr, -⟩
      cases hr
    · rintro ⟨q, hq, -⟩
      cases hq
  | cons first rest =>
    rw [h.mem_iff n]
    unfold spanOf
    rw [head?_cons, getLast?_eq_some_getLast (cons_ne_nil first rest)]
    constructor
    · rintro ⟨r, hr, hn⟩
      cases hr
      exact hn
    · intro hn
      exact ⟨_, rfl, hn⟩

theorem Linked.spanOf_proper : ∀ r ∈ spanOf refs, r.Proper := by
  intro r hr
  cases refs with
  | nil => cases hr
  | cons first rest =>
    unfold spanOf at hr
    cases hr
    exact ((h.mem_iff first.number).mp ⟨first, mem_cons_self, rfl⟩).2

end

/-- `child` follows `parent` with Go's wrapping height arithmetic. -/
def WrapFollows (parent child : BlockRef H) : Prop :=
  child.number = parent.number + 1 ∧ child.parentHash = parent.hash

/-- A branch that is linked up to wrapping is linked if its heights fit. -/
theorem linked_of_no_wrap (h : (r :: rest).IsChain WrapFollows)
    (hfit : r.number.val + rest.length < 18446744073709551616) : Linked (r :: rest) := by
  induction rest generalizing r with
  | nil => exact List.IsChain.singleton r
  | cons q rest ih =>
    have hq : WrapFollows r q := List.IsChain.rel h
    rw [length_cons] at hfit
    have hmax : r.number ≠ maxUint64 := by
      intro hmax
      rw [eq_maxUint64_iff] at hmax
      omega
    have hval : q.number.val = r.number.val + 1 := by
      rw [hq.1]
      exact val_add_one hmax
    refine List.IsChain.cons_cons ⟨hmax, hq.1, hq.2⟩ (ih (List.IsChain.tail h) ?_)
    omega

theorem wrap_last_val (h : (r :: rest).IsChain WrapFollows) :
    ((r :: rest).getLast (cons_ne_nil _ _)).number.val
      = (r.number.val + rest.length) % 18446744073709551616 := by
  induction rest generalizing r with
  | nil =>
    simp only [getLast_singleton, length_nil]
    omega
  | cons q rest ih =>
    have hq : WrapFollows r q := IsChain.rel h
    have hval : q.number.val = (r.number.val + 1) % 18446744073709551616 := by
      rw [hq.1]
      rfl
    rw [getLast_cons (cons_ne_nil _ _), ih (IsChain.tail h), length_cons, hval]
    omega

variable {p : BlockRef H}

theorem wrap_index_val (h : (r :: rest).IsChain WrapFollows) {i : Nat} (hi : rest[i]? = some p) :
    p.number.val = (r.number.val + 1 + i) % 18446744073709551616 := by
  induction rest generalizing r i with
  | nil => cases hi
  | cons q rest ih =>
    have hq : WrapFollows r q := IsChain.rel h
    have hval : q.number.val = (r.number.val + 1) % 18446744073709551616 := by
      rw [hq.1]
      rfl
    cases i with
    | zero =>
      cases hi
      exact hval
    | succ i =>
      rw [ih (IsChain.tail h) hi, hval]
      omega

/-- A wrapping chain that is a slice has one block per height. -/
theorem wrap_eq_of_number
    (h : (r :: rest).IsChain WrapFollows) (hlen : rest.length < 9223372036854775808)
    (hp : p ∈ rest) (hq : q ∈ rest) (hnum : p.number = q.number) : p = q := by
  obtain ⟨i, hi⟩ := mem_iff_getElem?.mp hp
  obtain ⟨j, hj⟩ := mem_iff_getElem?.mp hq
  have hilt := (List.getElem?_eq_some_iff.mp hi).1
  have hjlt := (List.getElem?_eq_some_iff.mp hj).1
  have hpi := wrap_index_val h hi
  have hqj := wrap_index_val h hj
  have hij : i = j := by
    rw [hnum, hqj] at hpi
    omega
  rw [hij, hj] at hi
  exact (Option.some.inj hi).symm

/-- A wrapping chain whose last height is not below its first is linked: a slice
    is too short to run through all heights. -/
theorem linked_of_le
    (h : (r :: rest).IsChain WrapFollows) (hlen : rest.length < 9223372036854775808)
    (hle : r.number ≤ ((r :: rest).getLast (cons_ne_nil _ _)).number) :
    Linked (r :: rest) := by
  refine linked_of_no_wrap h ?_
  have hlast := wrap_last_val h
  rw [le_def, hlast] at hle
  omega

/-! ## Owned bundles -/

section Owned

variable [ChainBundle B H]

/-- An owned bundle with its reference. -/
def Owned (item : BlockRef H × B) : Prop :=
  refFromBundle item.2 = .ok item.1 ∧ cloneBundle item.2 = .ok item.2

theorem Owned.of_clone {b c : B} (hc : cloneBundle b = .ok c)
    (hr : refFromBundle c = .ok r) : Owned (r, c) := ⟨hr, cloneBundle_clone hc⟩

/-- Two owned bundles with one hash have one reference. -/
theorem Owned.ref_unique {p q : BlockRef H × B} (hp : Owned p) (hq : Owned q)
    (h : p.1.hash = q.1.hash) : p.1 = q.1 := refFromBundle_unique hp.1 hq.1 h

variable {items : List (BlockRef H × B)}

/-- The interval of a branch is the one its references span. -/
theorem attachedRange_refs (h : ∀ p ∈ items, refFromBundle p.2 = .ok p.1) :
    attachedRange (items.map snd) = .ok (spanOf (items.map fst)) := by
  cases items with
  | nil => rfl
  | cons first rest =>
    have hlast : ∃ last, (first :: rest).getLast? = some last := by
      rw [getLast?_eq_some_getLast (cons_ne_nil _ _)]
      exact ⟨_, rfl⟩
    obtain ⟨last, hlast⟩ := hlast
    have hmem : last ∈ first :: rest := mem_of_getLast? hlast
    unfold attachedRange spanOf
    rw [getLast?_map, getLast?_map, hlast]
    show (do
      let a ← refFromBundle first.2
      let b ← refFromBundle last.2
      return some (⟨a.number, b.number⟩ : BlockRange)) = _
    rw [h first mem_cons_self, h last hmem]
    rfl

theorem attachedRange_owned (h : ∀ p ∈ items, Owned p) :
    attachedRange (items.map snd) = .ok (spanOf (items.map fst)) :=
  attachedRange_refs (fun p hp => (h p hp).1)

/-! ## Segments -/

/-- A segment block against the one before it. -/
def checkSegmentLink [DecidableEq H] (previous : Option (BlockRef H)) (reference : BlockRef H) :
    Except StoreError Unit :=
  match previous with
  | none => .ok ()
  | some previous =>
    failIf (previous.number = maxUint64 ∨ reference.number ≠ previous.number + 1 ∨
        reference.parentHash ≠ previous.hash)
      (.conflict (s!"canonical segment block {reference.number.val} does not descend " ++
        s!"from block {previous.number.val}"))

/-- The loop of `validateCanonicalSegment`; `previous` is the reference before
    the current one. -/
def validateCanonicalSegmentLoop [DecidableEq H] :
    Nat → Option (BlockRef H) → List B → Except StoreError (List (BlockRef H × B))
  | _, _, [] => .ok []
  | index, previous, bundle :: rest => do
      let copy ← (cloneBundle bundle).mapError (.wrap s!"own canonical segment block {index}")
      let reference ← (refFromBundle copy).mapError (.wrap s!"canonical segment block {index}")
      checkSegmentLink previous reference
      let others ← validateCanonicalSegmentLoop (index + 1) (some reference) rest
      return (reference, copy) :: others

/-- The checks of a segment: not empty, and parent-linked without a wrap. -/
def validateCanonicalSegment [DecidableEq H] (bundles : List B) :
    Except StoreError (List (BlockRef H × B)) := do
  failIf (bundles = []) (.plain "canonical segment is empty")
  validateCanonicalSegmentLoop 0 none bundles

variable {index : Nat} {bundles : List B}

/-- What the segment loop returns: owned bundles whose references continue the
    chain that ends in `previous`, in the order of the argument. -/
theorem validateCanonicalSegmentLoop_ok [DecidableEq H] {previous : Option (BlockRef H)}
    (h : validateCanonicalSegmentLoop index previous bundles = .ok items) :
    (∀ p ∈ items, Owned p) ∧ Linked (previous.toList ++ items.map Prod.fst)
      ∧ Forall₂ (fun b p => cloneBundle b = .ok p.2) bundles items := by
  induction bundles generalizing index previous items with
  | nil =>
    cases h
    refine ⟨fun p hp => (nomatch hp), ?_, Forall₂.nil⟩
    cases previous with
    | none => exact List.IsChain.nil
    | some p => exact List.IsChain.singleton p
  | cons bundle rest ih =>
    obtain ⟨copy, hcopy, h⟩ := bind_eq_ok.mp h
    obtain ⟨reference, href, h⟩ := bind_eq_ok.mp h
    rw [mapError_eq_ok] at hcopy href
    obtain ⟨_, hlink, h⟩ := bind_eq_ok.mp h
    obtain ⟨others, hothers, h⟩ := bind_eq_ok.mp h
    have hitems := pure_eq_ok.mp h
    subst hitems
    obtain ⟨howned, hlinked, hcopies⟩ := ih hothers
    refine ⟨?_, ?_, Forall₂.cons hcopy hcopies⟩
    · intro p hp
      rcases mem_cons.mp hp with rfl | hp
      · exact Owned.of_clone hcopy href
      · exact howned p hp
    · cases previous with
      | none => exact hlinked
      | some p =>
        rw [checkSegmentLink, failIf_eq_ok, not_or, not_or, not_not, not_not] at hlink
        exact List.IsChain.cons_cons hlink hlinked

/-- An accepted segment: non-empty, owned, linked, in the order of the argument. -/
theorem validateCanonicalSegment_ok [DecidableEq H]
    (h : validateCanonicalSegment bundles = .ok items) :
    items ≠ [] ∧ (∀ p ∈ items, Owned p) ∧ Linked (items.map fst)
      ∧ Forall₂ (fun b p => cloneBundle b = .ok p.2) bundles items := by
  obtain ⟨_, hne, h⟩ := bind_eq_ok.mp h
  obtain ⟨howned, hlinked, hcopies⟩ := validateCanonicalSegmentLoop_ok h
  rw [failIf_eq_ok] at hne
  refine ⟨?_, howned, hlinked, hcopies⟩
  rintro rfl
  cases hcopies
  exact hne rfl

/-! ## Sparse replacements -/

/-- The check of a replacement reason. -/
def validateReason (reason : String) : Except StoreError Unit :=
  failIf (Texts.trimSpace reason = "" ∨ (Texts.trimSpace reason).utf8ByteSize > 1024)
    (.plain "sparse canonical replacement reason must contain 1 to 1024 characters")

/-- A detached block against the one below it in the branch. -/
def checkSparseNext [DecidableEq H] (reference : BlockRef H) :
    List (BlockRef H) → Except StoreError Unit
  | [] => .ok ()
  | next :: _ => do
      failIf (next.number ≥ reference.number)
        (.plain "sparse detached branch is not strictly height-descending")
      failIf (next.number + 1 = reference.number ∧ reference.parentHash ≠ next.hash)
        (.plain "sparse detached branch is not internally continuous")

/-- The loop of `validateSparseCanonicalReplacement` over the detached branch. -/
def checkSparseDetached [DecidableEq H] (range : BlockRange) (wantDetached : Uint64) :
    Nat → List (BlockRef H) → Except StoreError Unit
  | _, [] => .ok ()
  | index, reference :: rest => do
      failIf (uint64 index < wantDetached ∧ reference.number ≠ range.stop - uint64 index)
        (.plain (s!"sparse detached block {index} has height {reference.number.val}, " ++
          s!"expected {(range.stop - uint64 index).val}"))
      checkSparseNext reference rest
      checkSparseDetached range wantDetached (index + 1) rest

/-- The check of the lowest detached block against the ancestor. -/
def checkSparseLowest [DecidableEq H] (replacement : SparseCanonicalReplacement B H) :
    Except StoreError Unit :=
  match replacement.ancestor, replacement.detached.val.getLast? with
  | none, _ => .ok ()
  | some _, none => .error .indexOutOfRange
  | some ancestor, some lowest =>
    failIf (lowest.number = ancestor.number + 1 ∧ lowest.parentHash ≠ ancestor.hash)
      (.plain "lowest sparse detached block does not descend from the ancestor")

/-- Where the attached branch of a replacement has to start. -/
def checkSparseAttached [DecidableEq H] (replacement : SparseCanonicalReplacement B H) :
    List (BlockRef H × B) → Except StoreError Unit
  | [] => .error .indexOutOfRange
  | (first, _) :: _ =>
    match replacement.ancestor with
    | none =>
      failIf (first.number ≠ replacement.range.start)
        (.plain "sparse attached branch starts at the wrong height")
    | some ancestor => do
        failIf (ancestor.number = maxUint64) (.plain "sparse replacement ancestor height overflows")
        failIf (first.parentHash ≠ ancestor.hash)
          (.plain "sparse attached branch does not descend from the ancestor")
        failIf (first.number ≠ ancestor.number + 1)
          (.plain "sparse attached branch starts at the wrong height")

/-- The size check of the detached branch. -/
def checkSparseSize (replacement : SparseCanonicalReplacement B H) (wantDetached : Uint64) :
    Except StoreError Unit :=
  match replacement.ancestor with
  | none =>
    failIf (uint64 replacement.detached.val.length ≠ wantDetached)
      (.plain "sparse canonical replacement must detach the complete old range")
  | some ancestor =>
    failIf (ancestor.number ≥ replacement.range.start ∨
        uint64 replacement.detached.val.length < wantDetached)
      (.plain "generalized sparse replacement has an invalid ancestor or detached branch")

/-- The checks of a sparse replacement, in the order of the source. -/
def validateSparseCanonicalReplacement [DecidableEq H]
    (replacement : SparseCanonicalReplacement B H) :
    Except StoreError (List (BlockRef H × B)) := do
  failIf (replacement.range.stop < replacement.range.start)
    (.plain "sparse canonical replacement range is invalid")
  let wantDetached := replacement.range.stop - replacement.range.start + 1
  checkSparseSize replacement wantDetached
  checkSparseDetached replacement.range wantDetached 0 replacement.detached.val
  checkSparseLowest replacement
  if replacement.attached.val = [] then
    failIf (replacement.ancestor = none)
      (.plain "sparse replacement without an ancestor requires an attached branch")
    validateReason replacement.reason
    return []
  else
    let items ← (validateCanonicalSegment replacement.attached.val).mapError
      (.wrap "validate sparse attached branch")
    checkSparseAttached replacement items
    validateReason replacement.reason
    return items

/-- Neighbours of a detached sparse branch: strictly descending, and
    parent-linked where they touch. -/
def Descends (upper lower : BlockRef H) : Prop := lower.number < upper.number
    ∧ (lower.number + 1 = upper.number → upper.parentHash = lower.hash)

variable {range : BlockRange} {l : List (BlockRef H)}

omit [ChainBundle B H] in
/-- An accepted detached list descends, and covers the range as far as it has to. -/
theorem checkSparseDetached_ok [DecidableEq H] {want : Uint64}
    (h : checkSparseDetached range want index l = .ok ()) :
    l.IsChain Descends ∧ ∀ i d, l[i]? = some d → uint64 (index + i) < want →
          d.number = range.stop - uint64 (index + i) := by
  induction l generalizing index with
  | nil => exact ⟨List.IsChain.nil, fun i d hd => (nomatch hd)⟩
  | cons reference rest ih =>
    obtain ⟨_, hheight, h⟩ := bind_eq_ok.mp h
    obtain ⟨_, hnext, h⟩ := bind_eq_ok.mp h
    obtain ⟨hchain, hrest⟩ := ih h
    rw [failIf_eq_ok, not_and, not_not] at hheight
    refine ⟨?_, ?_⟩
    · cases rest with
      | nil => exact List.IsChain.singleton _
      | cons next rest =>
        obtain ⟨_, hlt, hlink⟩ := bind_eq_ok.mp hnext
        rw [failIf_eq_ok] at hlt hlink
        rw [not_and, not_not] at hlink
        exact List.IsChain.cons_cons ⟨not_le.mp hlt, hlink⟩ hchain
    · intro i d hd
      cases i with
      | zero =>
        cases hd
        exact hheight
      | succ i =>
        have hi : index + (i + 1) = index + 1 + i := by omega
        rw [hi]
        exact hrest i d hd

/-- What an accepted sparse replacement looks like. -/
structure SparseAccepted (replacement : SparseCanonicalReplacement B H)
    (items : List (BlockRef H × B)) : Prop where
  proper : replacement.range.Proper
  owned : ∀ p ∈ items, Owned p
  linked : Linked (items.map fst)
  descends : replacement.detached.val.IsChain Descends
  /-- A non-empty detached branch holds the complete old range. -/
  detaches_range : replacement.detached.val ≠ [] → ∀ n, replacement.range.Has n →
    ∃ d ∈ replacement.detached.val, d.number = n
  /-- Without an ancestor it holds nothing else. -/
  detaches_only : replacement.ancestor = none → ∀ d ∈ replacement.detached.val,
    replacement.range.Has d.number
  ancestor_below : ∀ a ∈ replacement.ancestor, a.number < replacement.range.start
  nonempty : ∀ a ∈ replacement.ancestor, replacement.detached.val ≠ []
  /-- The attached branch starts where the range or the ancestor says. -/
  starts : ∀ first ∈ (items.map fst).head?, match replacement.ancestor with
    | none => first.number = replacement.range.start
    | some a => Follows a first
  attached : replacement.ancestor = none → items ≠ []
  copies : List.Forall₂ (fun b p => cloneBundle b = .ok p.2) replacement.attached.val items

/-- The number of heights of a range, as the source computes it. -/
private theorem wantDetached_val (h : range.Proper)
    (h0 : ¬ (range.start = 0 ∧ range.stop = maxUint64)) :
    (range.stop - range.start + 1).val = range.stop.val - range.start.val + 1 := by
  have hsub : (range.stop - range.start).val = range.stop.val - range.start.val := sub_val_of_le h
  have hne : range.stop - range.start ≠ maxUint64 := by
    intro hmax
    rw [eq_maxUint64_iff, hsub] at hmax
    refine h0 ⟨Fin.ext ?_, eq_maxUint64_iff.mpr ?_⟩
    · show range.start.val = 0
      omega
    · omega
  rw [val_add_one hne, hsub]

private theorem sub_uint64_val {a : Uint64} {i : Nat} (h : i ≤ a.val) :
    (a - uint64 i).val = a.val - i := by
  have hi : (uint64 i).val = i := uint64_val (lt_of_le_of_lt h a.isLt)
  rw [sub_val_of_le (by rw [le_def, hi]; exact h), hi]

variable {replacement : SparseCanonicalReplacement B H}

omit [ChainBundle B H] in
/-- The size check, with the wrapped count of a full range ruled out. -/
private theorem checkSparseSize_ok (hproper : replacement.range.Proper)
    (h : checkSparseSize replacement (replacement.range.stop - replacement.range.start + 1)
      = .ok ()) :
    (∀ a ∈ replacement.ancestor, a.number < replacement.range.start)
      ∧ (replacement.detached.val ≠ [] ∨ replacement.ancestor ≠ none →
        replacement.range.stop.val - replacement.range.start.val + 1
          ≤ replacement.detached.val.length
        ∧ (replacement.range.stop - replacement.range.start + 1).val
          = replacement.range.stop.val - replacement.range.start.val + 1)
      ∧ (replacement.ancestor = none → replacement.detached.val.length
          ≤ replacement.range.stop.val - replacement.range.start.val + 1) := by
  have hlen : (uint64 replacement.detached.val.length).val = replacement.detached.val.length :=
    uint64_val (lt_trans replacement.detached.property (by decide))
  unfold checkSparseSize at h
  cases ha : replacement.ancestor with
  | none =>
    rw [ha] at h
    rw [failIf_eq_ok, not_not] at h
    have hval := congrArg Fin.val h
    rw [hlen] at hval
    by_cases h0 : replacement.range.start = 0 ∧ replacement.range.stop = maxUint64
    · -- the count wraps to zero, so nothing is detached
      have hzero : replacement.detached.val.length = 0 := by
        rw [hval, h0.1, h0.2]
        rfl
      refine ⟨fun a h => (nomatch h), ?_, fun _ => by omega⟩
      rintro (hne | hne)
      · exact absurd (length_eq_zero_iff.mp hzero) hne
      · exact absurd rfl hne
    · have hw := wantDetached_val hproper h0
      refine ⟨fun a h => (nomatch h), fun _ => ⟨by omega, hw⟩, fun _ => by omega⟩
  | some a =>
    rw [ha] at h
    rw [failIf_eq_ok, not_or, not_le, not_lt] at h
    obtain ⟨hbelow, hle⟩ := h
    have h0 : ¬ (replacement.range.start = 0 ∧ replacement.range.stop = maxUint64) := by
      rintro ⟨h0, -⟩
      rw [h0] at hbelow
      exact absurd hbelow (Fin.not_lt_zero _)
    have hw := wantDetached_val hproper h0
    rw [le_def, hlen, hw] at hle
    refine ⟨?_, fun _ => ⟨hle, hw⟩, fun hno => (nomatch hno)⟩
    intro b hb
    cases hb
    exact hbelow

omit [ChainBundle B H] in
/-- The attached branch starts at the range or right above the ancestor. -/
private theorem checkSparseAttached_ok [DecidableEq H]
    (h : checkSparseAttached replacement items = .ok ()) :
    items ≠ [] ∧ ∀ first ∈ (items.map fst).head?, match replacement.ancestor with
      | none => first.number = replacement.range.start
      | some a => Follows a first := by
  cases items with
  | nil => cases h
  | cons item rest =>
    refine ⟨cons_ne_nil _ _, ?_⟩
    intro first hfirst
    cases hfirst
    obtain ⟨first, copy⟩ := item
    unfold checkSparseAttached at h
    cases ha : replacement.ancestor with
    | none =>
      rw [ha] at h
      rw [failIf_eq_ok, not_not] at h
      exact h
    | some a =>
      rw [ha] at h
      obtain ⟨_, hmax, h⟩ := bind_eq_ok.mp h
      obtain ⟨_, hparent, h⟩ := bind_eq_ok.mp h
      rw [failIf_eq_ok] at hmax hparent h
      rw [not_not] at hparent h
      exact ⟨hmax, h, hparent⟩

section Counted

variable {l : List (BlockRef H)} {range : BlockRange}
  (hwant : (range.stop - range.start + 1).val = range.stop.val - range.start.val + 1)
  (hheights : ∀ i d, l[i]? = some d → uint64 i < range.stop - range.start + 1 →
    d.number = range.stop - uint64 i)

include hwant hheights

omit [ChainBundle B H] in
/-- Heights that are counted down from the end of a range fill it if there are enough. -/
private theorem counted_fills (hlen : range.stop.val - range.start.val + 1 ≤ l.length)
    {n : Uint64} (hn : range.Has n) : ∃ d ∈ l, d.number = n := by
  obtain ⟨hlo, hhi⟩ := hn
  rw [le_def] at hlo hhi
  -- height `n` sits `stop - n` places below the top
  have hi : range.stop.val - n.val < l.length := by omega
  refine ⟨l[range.stop.val - n.val], getElem_mem hi, ?_⟩
  have hsmall : (uint64 (range.stop.val - n.val)).val = range.stop.val - n.val := by
    refine uint64_val ?_
    have := range.stop.isLt
    omega
  rw [hheights _ _ (getElem?_eq_getElem hi) (by rw [lt_def, hsmall, hwant]; omega)]
  refine Fin.ext ?_
  rw [sub_uint64_val (by omega)]
  omega

omit [ChainBundle B H] in
/-- Heights that are counted down from the end of a range stay in it if there are not too
    many. -/
private theorem counted_inside (hlen : l.length ≤ range.stop.val - range.start.val + 1)
    {d : BlockRef H} (hd : d ∈ l) : range.Has d.number := by
  obtain ⟨i, hi, rfl⟩ := getElem_of_mem hd
  have hstop := range.stop.isLt
  have hsmall : (uint64 i).val = i := uint64_val (by omega)
  have hdown : (range.stop - uint64 i).val = range.stop.val - i := sub_uint64_val (by omega)
  rw [hheights i _ (getElem?_eq_getElem hi) (by rw [lt_def, hsmall, hwant]; omega)]
  constructor
  · rw [le_def, hdown]
    omega
  · rw [le_def, hdown]
    omega

end Counted

/-- An accepted replacement has the shape the transition relies on. -/
theorem validateSparseCanonicalReplacement_ok [DecidableEq H]
    (h : validateSparseCanonicalReplacement replacement = .ok items) :
    SparseAccepted replacement items := by
  obtain ⟨_, hproper, h⟩ := bind_eq_ok.mp h
  obtain ⟨_, hsize, h⟩ := bind_eq_ok.mp h
  obtain ⟨_, hdetached, h⟩ := bind_eq_ok.mp h
  obtain ⟨_, hlowest, h⟩ := bind_eq_ok.mp h
  rw [failIf_eq_ok, not_lt] at hproper
  obtain ⟨hbelow, hfull, honly⟩ := checkSparseSize_ok hproper hsize
  obtain ⟨hchain, hheights⟩ := checkSparseDetached_ok hdetached
  simp only [zero_add] at hheights
  have hnonempty : ∀ a ∈ replacement.ancestor, replacement.detached.val ≠ [] := by
    intro a ha hnil
    have ha' : replacement.ancestor ≠ none := by
      rw [ha]
      exact Option.some_ne_none a
    have := (hfull (.inr ha')).1
    rw [hnil, length_nil] at this
    omega
  have hrange : replacement.detached.val ≠ [] → ∀ n, replacement.range.Has n →
      ∃ d ∈ replacement.detached.val, d.number = n := by
    intro hne n hn
    obtain ⟨hlen, hwant⟩ := hfull (.inl hne)
    exact counted_fills hwant hheights hlen hn
  have hin : replacement.ancestor = none → ∀ d ∈ replacement.detached.val,
      replacement.range.Has d.number := by
    intro hnone d hd
    obtain ⟨-, hwant⟩ := hfull (.inl (ne_nil_of_mem hd))
    exact counted_inside hwant hheights (honly hnone) hd
  by_cases hatt : replacement.attached.val = []
  · rw [if_pos hatt] at h
    obtain ⟨_, hsome, h⟩ := bind_eq_ok.mp h
    obtain ⟨_, -, h⟩ := bind_eq_ok.mp h
    rw [failIf_eq_ok] at hsome
    have hitems := pure_eq_ok.mp h
    subst hitems
    exact ⟨hproper, fun p hp => (nomatch hp), IsChain.nil, hchain, hrange, hin, hbelow,
      hnonempty, fun first hf => (nomatch hf), fun hno => absurd hno hsome,
      by rw [hatt]; exact Forall₂.nil⟩
  · rw [if_neg hatt] at h
    obtain ⟨items', hitems, h⟩ := bind_eq_ok.mp h
    obtain ⟨_, hstart, h⟩ := bind_eq_ok.mp h
    obtain ⟨_, -, h⟩ := bind_eq_ok.mp h
    have heq := pure_eq_ok.mp h
    subst heq
    rw [mapError_eq_ok] at hitems
    obtain ⟨-, howned, hlinked, hcopies⟩ := validateCanonicalSegment_ok hitems
    obtain ⟨hne, hstarts⟩ := checkSparseAttached_ok hstart
    exact ⟨hproper, howned, hlinked, hchain, hrange, hin, hbelow, hnonempty, hstarts,
      fun _ => hne, hcopies⟩

/-! ## Reorgs -/

/-- The core checkpoint at a block. -/
def newCoreCheckpoint (reference : BlockRef H) : Checkpoint H :=
  { stage := coreCheckpoint, contiguousThrough := reference.number, blockHash := reference.hash }

/-- A checkpoint names a stage and the block it is for. -/
def validateCheckpoint [DecidableEq H] (checkpoint : Checkpoint H) (expected : BlockRef H) :
    Except StoreError Unit := do
  failIf (checkpoint.stage = "") (.plain "checkpoint stage is empty")
  failIf (checkpoint.contiguousThrough ≠ expected.number)
    (.plain (s!"checkpoint height {checkpoint.contiguousThrough.val} does not match " ++
      s!"block height {expected.number.val}"))
  failIf (checkpoint.blockHash ≠ expected.hash)
    (.plain "checkpoint block hash does not match canonical block")

/-- The copies `ownReorg` takes of the attached bundles. -/
def ownAttached : Nat → (bundles : List B) →
    Except StoreError { copies : List B // copies.length = bundles.length }
  | _, [] => .ok ⟨[], rfl⟩
  | index, bundle :: rest => do
      let copy ← (cloneBundle bundle).mapError (.wrap s!"own attached block {index}")
      let copies ← ownAttached (index + 1) rest
      return ⟨copy :: copies.val, by simp [copies.property]⟩

/-- A detached block against the one below it in the branch. -/
def checkReorgNext [DecidableEq H] (index : Nat) (detached : BlockRef H) :
    List (BlockRef H) → Except StoreError Unit
  | [] => .ok ()
  | next :: _ =>
    failIf (detached.parentHash ≠ next.hash)
      (.plain s!"detached block {index} does not descend from the next detached block")

/-- The loop of `validateReorg` over the detached branch. -/
def checkReorgDetached [DecidableEq H] (ancestor : BlockRef H) :
    Nat → List (BlockRef H) → Except StoreError Unit
  | _, [] => .ok ()
  | index, detached :: rest => do
      failIf (detached.number ≠ ancestor.number + uint64 (rest.length + 1))
        (.plain (s!"detached block {index} has height {detached.number.val}, " ++
          s!"expected {(ancestor.number + uint64 (rest.length + 1)).val}"))
      checkReorgNext index detached rest
      checkReorgDetached ancestor (index + 1) rest

/-- The lowest detached block against the ancestor. -/
def checkReorgLowest [DecidableEq H] (reorg : Reorg B H) : Except StoreError Unit :=
  match reorg.detached.val.getLast? with
  | none => .ok ()
  | some last =>
    failIf (last.parentHash ≠ reorg.ancestor.hash)
      (.plain "lowest detached block does not descend from the common ancestor")

/-- The loop of `validateReorg` over the attached branch, with the references it
    computes; the height comparison wraps. -/
def checkReorgAttached [DecidableEq H] :
    Nat → BlockRef H → List B → Except StoreError (List (BlockRef H × B))
  | _, _, [] => .ok []
  | index, parent, bundle :: rest => do
      let reference ← (refFromBundle bundle).mapError (.wrap s!"attached block {index}")
      failIf (reference.number ≠ parent.number + 1 ∨ reference.parentHash ≠ parent.hash)
        (.plain (s!"attached block {index} does not immediately descend from " ++
          "its predecessor"))
      let others ← checkReorgAttached (index + 1) reference rest
      return (reference, bundle) :: others

/-- `validateReorg` on owned bundles. -/
def validateReorg [DecidableEq H] (reorg : Reorg B H) :
    Except StoreError (List (BlockRef H × B)) := do
  failIf (reorg.detached.val = [] ∧ reorg.attached.val = [])
    (.plain "reorg contains no canonical changes")
  checkReorgDetached reorg.ancestor 0 reorg.detached.val
  checkReorgLowest reorg
  let items ← checkReorgAttached 0 reorg.ancestor reorg.attached.val
  validateCheckpoint reorg.checkpoint ((items.map fst).getLastD reorg.ancestor)
  return items

/-- `ownReorg`, with the references of the attached branch. -/
def ownReorg [DecidableEq H] (reorg : Reorg B H) :
    Except StoreError (Reorg B H × List (BlockRef H × B)) := do
  let copies ← ownAttached 0 reorg.attached.val
  let owned : Reorg B H := { reorg with
      attached := ⟨copies.val, by rw [copies.property]; exact reorg.attached.property⟩ }
  let items ← validateReorg owned
  return (owned, items)

/-- What an accepted reorg looks like. -/
structure ReorgAccepted (reorg owned : Reorg B H) (items : List (BlockRef H × B)) : Prop where
  ancestor : owned.ancestor = reorg.ancestor
  detached : owned.detached = reorg.detached
  checkpoint : owned.checkpoint = reorg.checkpoint
  attached : owned.attached.val = items.map snd
  changes : reorg.detached.val ≠ [] ∨ items ≠ []
  owned : ∀ p ∈ items, Owned p
  copies : List.Forall₂ (fun b p => cloneBundle b = .ok p.2) reorg.attached.val items
  chain : (reorg.ancestor :: items.map fst).IsChain WrapFollows
  /-- The detached heights count down to the block after the ancestor. -/
  heights : ∀ (i : Nat) (d : BlockRef H), reorg.detached.val[i]? = some d →
    d.number = reorg.ancestor.number + uint64 (reorg.detached.val.length - i)
  links : reorg.detached.val.IsChain (fun upper lower => upper.parentHash = lower.hash)
  lowest : ∀ last ∈ reorg.detached.val.getLast?, last.parentHash = reorg.ancestor.hash
  stage : reorg.checkpoint.stage ≠ ""
  through : reorg.checkpoint.contiguousThrough
    = ((items.map fst).getLastD reorg.ancestor).number
  hash : reorg.checkpoint.blockHash = ((items.map fst).getLastD reorg.ancestor).hash

omit [ChainBundle B H] in
theorem validateCheckpoint_ok [DecidableEq H] {checkpoint : Checkpoint H} {expected : BlockRef H}
    (h : validateCheckpoint checkpoint expected = .ok ()) :
    checkpoint.stage ≠ "" ∧ checkpoint.contiguousThrough = expected.number
      ∧ checkpoint.blockHash = expected.hash := by
  obtain ⟨_, h1, h⟩ := bind_eq_ok.mp h
  obtain ⟨_, h2, h3⟩ := bind_eq_ok.mp h
  rw [failIf_eq_ok] at h1 h2 h3
  exact ⟨h1, not_not.mp h2, not_not.mp h3⟩

theorem ownAttached_ok {copies : { copies : List B // copies.length = bundles.length }}
    (h : ownAttached index bundles = .ok copies) :
    Forall₂ (fun b c => cloneBundle b = .ok c) bundles copies.val := by
  induction bundles generalizing index with
  | nil =>
    cases h
    exact Forall₂.nil
  | cons bundle rest ih =>
    obtain ⟨copy, hcopy, h⟩ := bind_eq_ok.mp h
    obtain ⟨others, hothers, h⟩ := bind_eq_ok.mp h
    rw [mapError_eq_ok] at hcopy
    have hcopies := pure_eq_ok.mp h
    subst hcopies
    exact Forall₂.cons hcopy (ih hothers)

variable {ancestor : BlockRef H}

omit [ChainBundle B H] in
/-- An accepted detached list counts down to the block after the ancestor, along the
    parents. -/
theorem checkReorgDetached_ok [DecidableEq H] (h : checkReorgDetached ancestor index l = .ok ()) :
    (∀ (i : Nat) (d : BlockRef H), l[i]? = some d →
        d.number = ancestor.number + uint64 (l.length - i))
      ∧ l.IsChain (fun upper lower => upper.parentHash = lower.hash) := by
  induction l generalizing index with
  | nil => exact ⟨fun i d hd => (nomatch hd), List.IsChain.nil⟩
  | cons top rest ih =>
    obtain ⟨_, hheight, h⟩ := bind_eq_ok.mp h
    obtain ⟨_, hnext, h⟩ := bind_eq_ok.mp h
    rw [failIf_eq_ok, not_not] at hheight
    obtain ⟨hheights, hlinks⟩ := ih h
    refine ⟨?_, ?_⟩
    · intro i d hd
      cases i with
      | zero =>
        cases hd
        exact hheight
      | succ i =>
        rw [length_cons, Nat.add_sub_add_right]
        exact hheights i d hd
    · cases rest with
      | nil => exact List.IsChain.singleton _
      | cons next rest =>
        rw [checkReorgNext, failIf_eq_ok, not_not] at hnext
        exact List.IsChain.cons_cons hnext hlinks

omit [ChainBundle B H] in
/-- A branch that counts down to the block after `ancestor` from a tip that is not
    below it holds one block for each height in between: a slice is too short to
    wrap around to such a tip. -/
theorem countdown_heights {detached : List (BlockRef H)}
    (hlen : detached.length < 9223372036854775808)
    (hheights : ∀ (i : Nat) (d : BlockRef H), detached[i]? = some d →
      d.number = ancestor.number + uint64 (detached.length - i))
    {top : BlockRef H} (htop : detached.head? = some top) (hle : ancestor.number ≤ top.number) :
    ancestor.number.val + detached.length = top.number.val
      ∧ ∀ n, (∃ d ∈ detached, d.number = n) ↔ ancestor.number < n
        ∧ n ≤ top.number := by
  have hval : ∀ k, k < 9223372036854775808 →
      (ancestor.number + uint64 k).val = (ancestor.number.val + k) % 18446744073709551616 := by
    intro k hk
    show (ancestor.number.val + (uint64 k).val) % 18446744073709551616 = _
    rw [uint64_val (lt_trans hk (by decide))]
  have htopval : top.number.val
      = (ancestor.number.val + detached.length) % 18446744073709551616 := by
    rw [hheights 0 top (by rw [← head?_eq_getElem?]; exact htop), Nat.sub_zero]
    exact hval _ hlen
  have hsum : ancestor.number.val + detached.length = top.number.val := by
    rw [le_def, htopval] at hle
    omega
  have hheight : ∀ i d, detached[i]? = some d → i < detached.length →
      d.number.val = top.number.val - i := by
    intro i d hd hi
    rw [hheights i d hd, hval _ (by omega)]
    omega
  refine ⟨hsum, ?_⟩
  intro n
  rw [lt_def, le_def]
  constructor
  · rintro ⟨d, hd, rfl⟩
    obtain ⟨i, hi, rfl⟩ := getElem_of_mem hd
    have := hheight i _ (getElem?_eq_getElem hi) hi
    omega
  · rintro ⟨hlo, hhi⟩
    have hi : top.number.val - n.val < detached.length := by omega
    refine ⟨detached[top.number.val - n.val], getElem_mem hi, Fin.ext ?_⟩
    rw [hheight _ _ (getElem?_eq_getElem hi) hi]
    omega

/-- An accepted attached branch follows its parent block by block, up to wrapping. -/
theorem checkReorgAttached_ok [DecidableEq H] {parent : BlockRef H}
    (h : checkReorgAttached index parent bundles = .ok items) :
    bundles = items.map Prod.snd ∧ (∀ p ∈ items, refFromBundle p.2 = .ok p.1)
      ∧ (parent :: items.map Prod.fst).IsChain WrapFollows := by
  induction bundles generalizing index parent items with
  | nil =>
    cases h
    exact ⟨rfl, fun p hp => (nomatch hp), List.IsChain.singleton _⟩
  | cons bundle rest ih =>
    obtain ⟨reference, href, h⟩ := bind_eq_ok.mp h
    obtain ⟨_, hlink, h⟩ := bind_eq_ok.mp h
    obtain ⟨others, hothers, h⟩ := bind_eq_ok.mp h
    have hitems := pure_eq_ok.mp h
    subst hitems
    rw [mapError_eq_ok] at href
    rw [failIf_eq_ok, not_or, not_not, not_not] at hlink
    obtain ⟨hbundles, hrefs, hchain⟩ := ih hothers
    refine ⟨by rw [map_cons, ← hbundles], ?_, List.IsChain.cons_cons hlink hchain⟩
    intro p hp
    rcases mem_cons.mp hp with rfl | hp
    · exact href
    · exact hrefs p hp

/-- The references of an owned branch are those of the bundles it was copied from. -/
theorem attached_ref_iff (hcopies : Forall₂ (fun b p => cloneBundle b = .ok p.2) bundles items)
    (howned : ∀ p ∈ items, Owned p) :
    (∃ b ∈ bundles, refFromBundle b = .ok r) ↔ ∃ p ∈ items, p.1 = r := by
  induction hcopies with
  | nil => simp
  | @cons b p bundles items hclone _ ih =>
    have hp : refFromBundle b = .ok p.1 := by
      rw [← refFromBundle_clone hclone]
      exact (howned p mem_cons_self).1
    simp only [exists_mem_cons_iff, hp, Except.ok.injEq,
      ih fun q hq => howned q (mem_cons_of_mem _ hq)]

/-- What `validateReorg` checks of a reorg with the references it computes. -/
structure ReorgChecked (reorg : Reorg B H) (items : List (BlockRef H × B)) : Prop where
  changes : reorg.detached.val ≠ [] ∨ items ≠ []
  attached : reorg.attached.val = items.map snd
  refs : ∀ p ∈ items, refFromBundle p.2 = .ok p.1
  chain : (reorg.ancestor :: items.map fst).IsChain WrapFollows
  heights : ∀ (i : Nat) (d : BlockRef H), reorg.detached.val[i]? = some d →
    d.number = reorg.ancestor.number + uint64 (reorg.detached.val.length - i)
  links : reorg.detached.val.IsChain (fun upper lower => upper.parentHash = lower.hash)
  lowest : ∀ last ∈ reorg.detached.val.getLast?, last.parentHash = reorg.ancestor.hash
  stage : reorg.checkpoint.stage ≠ ""
  through : reorg.checkpoint.contiguousThrough
    = ((items.map fst).getLastD reorg.ancestor).number
  hash : reorg.checkpoint.blockHash = ((items.map fst).getLastD reorg.ancestor).hash

/-- What a validated reorg is. -/
theorem validateReorg_ok [DecidableEq H] {reorg : Reorg B H}
    (h : validateReorg reorg = .ok items) : ReorgChecked reorg items := by
  obtain ⟨_, hchanges, h⟩ := bind_eq_ok.mp h
  obtain ⟨_, hdetached, h⟩ := bind_eq_ok.mp h
  obtain ⟨_, hlowest, h⟩ := bind_eq_ok.mp h
  obtain ⟨items', hattached, h⟩ := bind_eq_ok.mp h
  obtain ⟨_, hcheckpoint, h⟩ := bind_eq_ok.mp h
  have heq := pure_eq_ok.mp h
  subst heq
  obtain ⟨hsnd, hrefs, hchain⟩ := checkReorgAttached_ok hattached
  obtain ⟨hheights, hlinks⟩ := checkReorgDetached_ok hdetached
  obtain ⟨hstage, hthrough, hhash⟩ := validateCheckpoint_ok hcheckpoint
  refine ⟨?_, hsnd, hrefs, hchain, hheights, hlinks, ?_, hstage, hthrough, hhash⟩
  · rw [failIf_eq_ok, hsnd, not_and_or, map_eq_nil_iff] at hchanges
    exact hchanges
  · intro last hlast
    unfold checkReorgLowest at hlowest
    rw [hlast] at hlowest
    rw [failIf_eq_ok, not_not] at hlowest
    exact hlowest

/-- An accepted reorg has the shape the transition relies on. -/
theorem ownReorg_ok [DecidableEq H] {reorg owned : Reorg B H}
    (h : ownReorg reorg = .ok (owned, items)) : ReorgAccepted reorg owned items := by
  obtain ⟨copies, hcopies, h⟩ := bind_eq_ok.mp h
  obtain ⟨items', hitems, h⟩ := bind_eq_ok.mp h
  have heq := pure_eq_ok.mp h
  cases heq
  have hchk := validateReorg_ok hitems
  have hclones := ownAttached_ok hcopies
  have hsnd : copies.val = items.map snd := hchk.attached
  rw [hsnd] at hclones
  have hclones' : Forall₂ (fun b p => cloneBundle b = .ok p.2) reorg.attached.val items :=
    (forall₂_map_right_iff (R := fun b c => cloneBundle b = .ok c)).mp hclones
  refine ⟨rfl, rfl, rfl, hsnd, hchk.changes, ?_, hclones', hchk.chain, hchk.heights, hchk.links,
    hchk.lowest, hchk.stage, hchk.through, hchk.hash⟩
  intro p hp
  obtain ⟨b, -, hclone⟩ := exists_related hclones'.flip hp
  exact ⟨hchk.refs p hp, cloneBundle_clone hclone⟩

end Owned

end Store
