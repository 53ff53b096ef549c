import Etherview.VerifyTransform

/-! # What the transformation matcher accepts

    `matchTransformedCode` on an input whose ranges pass the collection and the
    validation:

    * the three phases keep that the overlay is the deployed code on the written ranges
      and the compiled code elsewhere (`Overlay.Sound`, `references_run`,
      `auxdata_run`);
    * they fail exactly when two ranges of one library or of one immutable carry
      different deployed bytes (`overlayCode_run`);
    * the overlay is the deployed code exactly when that has the shape of the compiled
      code and agrees with it outside the written ranges (`finishMatch_eq`). -/

namespace Verify

open Hex Patch Transact List GoMap Prod

variable {A : Type}

/-! ## Declared ranges by identifier -/

/-- The decoded value of an auxdata entry. -/
def AuxdataValue.expected (auxdata : AuxdataValue) : List Byte :=
  match decodeBytecode auxdata.value with
  | .ok value => value
  | .error _ => []

/-- The range of an auxdata entry. -/
def AuxdataValue.region (auxdata : AuxdataValue) : BytecodeRange :=
  ⟨auxdata.offset, auxdata.expected.length⟩

namespace CodeTransformationInput

/-- The declared ranges. -/
def declared (input : CodeTransformationInput A) : List BytecodeRange :=
  input.auxdata.sortedEntries.map (fun e => e.2.region)
    ++ input.libraries.flatMap snd ++ input.immutables.flatMap snd

/-- The ranges declared under a reason and an identifier. -/
def Occurs (input : CodeTransformationInput A) (reason : TransformationReason) (id : String)
    (r : BytecodeRange) : Prop :=
  match reason with
  | .cborAuxdata => ∃ auxdata, (id, auxdata) ∈ input.auxdata.entries ∧ r = auxdata.region
  | .library => ∃ e ∈ input.libraries, e.1 = id ∧ r ∈ e.2
  | .immutable => ∃ e ∈ input.immutables, e.1 = id ∧ r ∈ e.2
  | .constructorArguments => False

/-- `collectTransformationRanges` and `validateRanges` accept the input. -/
def Accepted (input : CodeTransformationInput A) (compiledLength : Nat) : Prop :=
  ∃ ranges, collectTransformationRanges input = .ok ranges
    ∧ validateRanges ranges compiledLength = .ok ()

end CodeTransformationInput

/-- The ranges of one library or immutable carry one value. -/
def SameValue (deployed : List Byte) (ranges : List BytecodeRange) : Prop :=
  ∀ r ∈ ranges, ∀ s ∈ ranges, window deployed r = window deployed s

instance (deployed : List Byte) (ranges : List BytecodeRange) :
    Decidable (SameValue deployed ranges) :=
  inferInstanceAs
    (Decidable (∀ r ∈ ranges, ∀ s ∈ ranges, window deployed r = window deployed s))

/-- What an accepted input declares: non-empty ranges inside the compiled code. -/
structure Inside (input : CodeTransformationInput A) (compiledLength : Nat) : Prop where
  auxdata : ∀ e ∈ input.auxdata.entries, decodeBytecode e.2.value = .ok e.2.expected
    ∧ 0 < e.2.region.length ∧ e.2.region.stop ≤ compiledLength
  libraries : ∀ e ∈ input.libraries, e.2 ≠ [] ∧ ∀ r ∈ e.2, 0 < r.length
    ∧ r.stop ≤ compiledLength
  immutables : ∀ e ∈ input.immutables, e.2 ≠ [] ∧ ∀ r ∈ e.2, 0 < r.length
    ∧ r.stop ≤ compiledLength

/-- The range of accepted auxdata. -/
theorem auxdataRanges_ok {entry : String × AuxdataValue} {part : List BytecodeRange}
    (h : auxdataRanges entry = .ok part) :
    part = [entry.2.region] ∧ decodeBytecode entry.2.value = .ok entry.2.expected := by
  obtain ⟨id, auxdata⟩ := entry
  simp only [auxdataRanges] at h
  cases hd : decodeBytecode auxdata.value with
  | error e =>
    rw [hd] at h
    cases h
  | ok value =>
    have hexp : auxdata.expected = value := by rw [AuxdataValue.expected, hd]
    rw [hd] at h
    obtain ⟨_, -, h⟩ := bind_eq_ok.mp h
    refine ⟨?_, by rw [hexp]⟩
    rw [AuxdataValue.region, hexp]
    exact (pure_eq_ok.mp h).symm

variable {input : CodeTransformationInput A} {e : String × List BytecodeRange}

theorem mem_libraries : e ∈ input.libraries ↔ ∃ source ∈ input.linkReferences.entries,
      ∃ library ∈ source.2.entries, e = (source.1 ++ ":" ++ library.1, library.2) := by
  unfold CodeTransformationInput.libraries
  simp only [mem_flatMap, mem_map, mem_sortedEntries, eq_comm]

theorem mem_immutables : e ∈ input.immutables ↔ e ∈ input.immutableReferences.entries :=
  mem_sortedEntries _ _

/-- An accepted input declares ranges inside the code. -/
theorem CodeTransformationInput.Accepted.inside {n : Nat}
    (h : input.Accepted n) : Inside input n := by
  obtain ⟨ranges, hcollect, hvalid⟩ := h
  obtain ⟨auxdata, haux, hcollect⟩ := bind_eq_ok.mp hcollect
  obtain ⟨links, hlinks, hcollect⟩ := bind_eq_ok.mp hcollect
  obtain ⟨immutables, himm, hcollect⟩ := bind_eq_ok.mp hcollect
  have hranges := pure_eq_ok.mp hcollect
  subst hranges
  obtain ⟨-, hin, -⟩ := validateRanges_eq_ok.mp hvalid
  refine ⟨?_, ?_, ?_⟩
  · intro e he
    obtain ⟨part, hpart, hsub⟩ := (collect_ok haux).1 e he
    obtain ⟨rfl, hdecode⟩ := auxdataRanges_ok hpart
    have hmem := hsub e.2.region (mem_singleton.mpr rfl)
    exact ⟨hdecode, hin _ (mem_append_left _ (mem_append_left _ hmem))⟩
  · intro e he
    obtain ⟨source, hsource, library, hlibrary, rfl⟩ := mem_libraries.mp he
    obtain ⟨part, hpart, hsub⟩ := (collect_ok hlinks).1 source hsource
    obtain ⟨_, -, hpart⟩ := bind_eq_ok.mp hpart
    obtain ⟨inner, hinner, hsub'⟩ := (collect_ok hpart).1 library hlibrary
    obtain ⟨rfl, hne⟩ := libraryRanges_ok hinner
    refine ⟨hne, fun r hr => hin r ?_⟩
    exact mem_append_left _ (mem_append_right _ (hsub r (hsub' r hr)))
  · intro e he
    obtain ⟨part, hpart, hsub⟩ := (collect_ok himm).1 e (mem_immutables.mp he)
    obtain ⟨rfl, hne⟩ := immutableRanges_ok hpart
    exact ⟨hne, fun r hr => hin r (mem_append_right _ (hsub r hr))⟩

/-! ## One reference -/

/-- The transformation written for one range. -/
def mark (reason : TransformationReason) (id : String) (r : BytecodeRange) : Transformation :=
  ⟨.replace, reason, r.start, id⟩

section Reference

variable {deployed transformed : List Byte} {reason : TransformationReason} {id : String}
  {ranges : List BytecodeRange} {transformations : List Transformation}

/-- The loop once a value is set: every further range has to carry it. -/
private theorem applyConsistentRange_loop {value : List Byte} (hvalue : value ≠ [])
    (hin : ∀ r ∈ ranges, r.stop ≤ transformed.length)
    (hlen : transformed.length ≤ deployed.length) :
    ranges.foldlM (applyConsistentRange deployed reason id)
      ⟨value, transformed, transformations⟩
      = if ∀ r ∈ ranges, window deployed r = value then
          .ok ⟨value, copyAll deployed ranges transformed,
            transformations ++ ranges.map (mark reason id)⟩
        else .error repeatedValuesError := by
  induction ranges generalizing transformed transformations with
  | nil =>
    rw [if_pos (fun r hr => (by cases hr)), map_nil, append_nil]
    rfl
  | cons span rest ih =>
    have hspan := hin span mem_cons_self
    rw [foldlM_cons, applyConsistentRange]
    simp only
    rw [if_neg (by omega)]
    by_cases heq : window deployed span = value
    · have hwrite : (write transformed span.start (window deployed span)).length
          = transformed.length := by
        refine length_write ?_
        rw [length_window (le_trans hspan hlen)]
        exact hspan
      rw [if_neg (fun hc => hc.2 heq.symm), if_neg hvalue]
      show rest.foldlM _ _ = _
      rw [ih (fun r hr => by rw [hwrite]; exact hin r (mem_cons_of_mem _ hr))
        (by rw [hwrite]; exact hlen)]
      have hiff : (∀ r ∈ span :: rest, window deployed r = value)
          ↔ ∀ r ∈ rest, window deployed r = value := by
        rw [forall_mem_cons]
        exact and_iff_right heq
      simp only [hiff, append_assoc, singleton_append, map_cons]
      rfl
    · rw [if_pos ⟨hvalue, fun hc => heq hc.symm⟩,
        if_neg (fun hc => heq (hc span mem_cons_self))]
      rfl

variable {first : BytecodeRange} {rest : List BytecodeRange}

theorem window_ne_nil (hpos : 0 < first.length) (hfit : first.stop ≤ deployed.length) :
    window deployed first ≠ [] := by
  intro hnil
  have := length_window hfit
  rw [hnil, length_nil] at this
  omega

/-- **`applyConsistentRanges`**, on ranges inside the code: the ranges are copied if
    they carry one value, which is the value returned. -/
theorem applyConsistentRanges_eq
    (hin : ∀ r ∈ first :: rest, 0 < r.length ∧ r.stop ≤ transformed.length)
    (hlen : transformed.length ≤ deployed.length) :
    applyConsistentRanges transformed deployed (first :: rest) reason id transformations
      = if SameValue deployed (first :: rest) then
          .ok ⟨window deployed first, copyAll deployed (first :: rest) transformed,
            transformations ++ (first :: rest).map (mark reason id)⟩
        else .error repeatedValuesError := by
  obtain ⟨hpos, hfirst⟩ := hin first mem_cons_self
  have hwindow := window_ne_nil hpos (le_trans hfirst hlen)
  have hwrite : (write transformed first.start (window deployed first)).length
      = transformed.length := by
    refine length_write ?_
    rw [length_window (le_trans hfirst hlen)]
    exact hfirst
  rw [applyConsistentRanges, foldlM_cons, applyConsistentRange]
  simp only
  rw [if_neg (by omega), if_neg (fun hc => hc.1 rfl), if_pos trivial]
  show rest.foldlM _ _ = _
  rw [applyConsistentRange_loop hwindow
    (fun r hr => by rw [hwrite]; exact (hin r (mem_cons_of_mem _ hr)).2)
    (by rw [hwrite]; exact hlen)]
  have hiff : SameValue deployed (first :: rest)
      ↔ ∀ r ∈ rest, window deployed r = window deployed first := by
    constructor
    · intro h r hr
      exact h r (mem_cons_of_mem _ hr) first mem_cons_self
    · intro h
      have hall : ∀ r ∈ first :: rest, window deployed r = window deployed first := by
        rw [forall_mem_cons]
        exact ⟨rfl, h⟩
      intro r hr s hs
      rw [hall r hr, hall s hs]
  simp only [hiff, append_assoc, singleton_append, map_cons]
  rfl

/-- The overlay after the ranges of one identity. -/
def Overlay.apply (overlay : Overlay) (deployed : List Byte) (reason : TransformationReason)
    (id : String) (first : BytecodeRange) (ranges : List BytecodeRange) : Overlay :=
  { overlay with
    transformed := copyAll deployed ranges overlay.transformed
    transformations := overlay.transformations ++ ranges.map (mark reason id)
    values := overlay.values.store reason id (window deployed first) }

/-- One step of the loops over libraries and immutables. -/
theorem applyReference_eq {overlay : Overlay}
    (hin : ∀ r ∈ first :: rest, 0 < r.length ∧ r.stop ≤ overlay.transformed.length)
    (hlen : overlay.transformed.length ≤ deployed.length) :
    applyReference deployed reason overlay (id, first :: rest)
      = if SameValue deployed (first :: rest) then
          .ok (overlay.apply deployed reason id first (first :: rest))
        else .error repeatedValuesError := by
  obtain ⟨hpos, hfirst⟩ := hin first mem_cons_self
  have hwindow := window_ne_nil hpos (le_trans hfirst hlen)
  rw [applyReference, applyConsistentRanges_eq hin hlen]
  by_cases hsame : SameValue deployed (first :: rest)
  · rw [if_pos hsame, if_pos hsame]
    show Except.ok _ = _
    rw [if_neg hwindow]
    rfl
  · rw [if_neg hsame, if_neg hsame]
    rfl

end Reference

/-! ## What the phases keep -/

/-- A transformation marks a written range that is declared under its identifier. -/
def Marks (input : CodeTransformationInput A) (t : Transformation) (r : BytecodeRange) : Prop :=
  t.kind = .replace ∧ t.offset = r.start ∧ input.Occurs t.reason t.id r

/-- The overlaid code is a mixture over the written ranges, the transformations mark
    these ranges, and the stored values were read from declared ranges. -/
structure Overlay.Sound (input : CodeTransformationInput A) (deployed compiled : List Byte)
    (written : List BytecodeRange) (overlay : Overlay) : Prop where
  mix : Mix deployed compiled written overlay.transformed
  marks : List.Forall₂ (Marks input) overlay.transformations written
  stored : ∀ reason id text, overlay.values.lookup reason id = some text →
    ∃ r, input.Occurs reason id r ∧ text = Hex.text (window deployed r)
  present : ∀ t ∈ overlay.transformations, overlay.values.lookup t.reason t.id ≠ none
  within : ∀ r ∈ written, r.stop ≤ compiled.length

/-- Nothing is overlaid at first. -/
theorem Overlay.Sound.start (input : CodeTransformationInput A) (deployed compiled : List Byte) :
    (Overlay.start compiled).Sound input deployed compiled [] where
  mix := Mix.base deployed compiled
  marks := Forall₂.nil
  stored := by
    intro reason id text h
    cases reason <;> cases h
  present := by
    intro t ht
    cases ht
  within := by
    intro r hr
    cases hr

theorem TransformationValues.lookup_store_self (values : TransformationValues)
    {reason : TransformationReason} (hreason : reason ≠ .constructorArguments) (id : String)
    (value : List Byte) : (values.store reason id value).lookup reason id
      = some (Hex.text value) := by
  cases reason with
  | constructorArguments => exact absurd rfl hreason
  | _ => exact get?_insert_self _ _ _

/-- Storing leaves the other values. -/
theorem TransformationValues.lookup_store_ne (values : TransformationValues)
    {reason other : TransformationReason} (hreason : reason ≠ .constructorArguments)
    {id otherID : String} (hne : ¬ (other = reason ∧ otherID = id)) (value : List Byte) :
    (values.store reason id value).lookup other otherID = values.lookup other otherID := by
  cases reason with
  | constructorArguments => exact absurd rfl hreason
  | cborAuxdata =>
    cases other with
    | cborAuxdata => exact get?_insert_ne _ (fun h => hne ⟨rfl, h⟩) _
    | _ => rfl
  | library =>
    cases other with
    | library => exact get?_insert_ne _ (fun h => hne ⟨rfl, h⟩) _
    | _ => rfl
  | immutable =>
    cases other with
    | immutable => exact get?_insert_ne _ (fun h => hne ⟨rfl, h⟩) _
    | _ => rfl

section Phases

variable {input : CodeTransformationInput A} {deployed compiled : List Byte}
  {written : List BytecodeRange} {overlay : Overlay} {reason : TransformationReason} {id : String}

/-- Copying the ranges of one identifier and storing the value of one of them. -/
theorem Overlay.Sound.apply (h : overlay.Sound input deployed compiled written)
    (hlen : compiled.length ≤ deployed.length)
    (hreason : reason ≠ .constructorArguments) {ranges : List BytecodeRange}
    (hranges : ∀ r ∈ ranges, r.stop ≤ compiled.length ∧ input.Occurs reason id r)
    {first : BytecodeRange} (hfirst : first ∈ ranges) :
    (overlay.apply deployed reason id first ranges).Sound input deployed compiled
      (written ++ ranges) where
  mix := h.mix.copyAll hlen (fun r hr => (hranges r hr).1)
  marks := by
    refine rel_append h.marks ?_
    rw [forall₂_map_left_iff, forall₂_same]
    intro r hr
    exact ⟨rfl, rfl, (hranges r hr).2⟩
  stored := by
    intro other otherID text htext
    by_cases hsame : other = reason ∧ otherID = id
    · obtain ⟨rfl, rfl⟩ := hsame
      rw [Overlay.apply, TransformationValues.lookup_store_self _ hreason] at htext
      exact ⟨first, (hranges first hfirst).2, (Option.some.inj htext).symm⟩
    · rw [Overlay.apply, TransformationValues.lookup_store_ne _ hreason hsame] at htext
      exact h.stored other otherID text htext
  present := by
    intro t ht
    by_cases hsame : t.reason = reason ∧ t.id = id
    · rw [Overlay.apply, hsame.1, hsame.2, TransformationValues.lookup_store_self _ hreason]
      exact Option.some_ne_none _
    · rw [Overlay.apply, TransformationValues.lookup_store_ne _ hreason hsame]
      rcases mem_append.mp ht with ht | ht
      · exact h.present t ht
      · obtain ⟨r, -, rfl⟩ := mem_map.mp ht
        exact absurd ⟨rfl, rfl⟩ hsame
  within := by
    intro r hr
    rcases mem_append.mp hr with hr | hr
    · exact h.within r hr
    · exact (hranges r hr).1

/-- **A phase over references**: it copies all their ranges, or fails when one of them
    carries two values. -/
theorem references_run (hreason : reason ≠ .constructorArguments)
    (hlen : compiled.length ≤ deployed.length) (entries : List (String × List BytecodeRange))
    (hentries : ∀ e ∈ entries, e.2 ≠ []
      ∧ ∀ r ∈ e.2, (0 < r.length ∧ r.stop ≤ compiled.length)
        ∧ input.Occurs reason e.1 r)
    (h : overlay.Sound input deployed compiled written) :
    if ∀ e ∈ entries, SameValue deployed e.2 then
      ∃ next, entries.foldlM (applyReference deployed reason) overlay = .ok next
        ∧ next.Sound input deployed compiled (written ++ entries.flatMap snd)
        ∧ next.auxdataChanged = overlay.auxdataChanged
    else entries.foldlM (applyReference deployed reason) overlay = .error repeatedValuesError := by
  induction entries generalizing overlay written with
  | nil =>
    rw [if_pos (fun e he => (by cases he))]
    refine ⟨overlay, rfl, ?_, rfl⟩
    rw [flatMap_nil, append_nil]
    exact h
  | cons e rest ih =>
    obtain ⟨id, ranges⟩ := e
    obtain ⟨hne, hranges⟩ := hentries (id, ranges) mem_cons_self
    obtain ⟨first, more, rfl⟩ := exists_cons_of_ne_nil hne
    have hinside : ∀ r ∈ first :: more, 0 < r.length
        ∧ r.stop ≤ overlay.transformed.length := by
      intro r hr
      rw [h.mix.length_eq]
      exact (hranges r hr).1
    have hlength : overlay.transformed.length ≤ deployed.length := by
      rw [h.mix.length_eq]
      exact hlen
    rw [foldlM_cons, applyReference_eq hinside hlength]
    by_cases hsame : SameValue deployed (first :: more)
    · have hnext := h.apply hlen hreason
        (fun r hr => ⟨(hranges r hr).1.2, (hranges r hr).2⟩) mem_cons_self
      have hrest := ih (fun e he => hentries e (mem_cons_of_mem _ he)) hnext
      rw [if_pos hsame]
      show if _ then ∃ next, rest.foldlM _ _ = _ ∧ _ else rest.foldlM _ _ = _
      -- this reference carries one value, so the others decide
      have hiff : (∀ e ∈ (id, first :: more) :: rest, SameValue deployed e.2)
          ↔ ∀ e ∈ rest, SameValue deployed e.2 := by
        rw [forall_mem_cons]
        exact and_iff_right hsame
      simp only [hiff]
      split
      · rename_i hall
        rw [if_pos hall] at hrest
        obtain ⟨next, hrun, hsound, hchanged⟩ := hrest
        refine ⟨next, hrun, ?_, hchanged⟩
        rw [flatMap_cons, ← append_assoc]
        exact hsound
      · rename_i hall
        rw [if_neg hall] at hrest
        exact hrest
    · rw [if_neg hsame, if_neg (fun hall => hsame (hall _ mem_cons_self))]
      rfl

/-- One step of the loop over the auxdata, on an accepted entry. -/
theorem applyAuxdata_eq {auxdata : AuxdataValue}
    (hdecode : decodeBytecode auxdata.value = .ok auxdata.expected)
    (hin : auxdata.region.stop ≤ compiled.length) :
    applyAuxdata deployed compiled.length overlay (id, auxdata)
      = if window deployed auxdata.region = auxdata.expected then .ok overlay
        else .ok { overlay.apply deployed .cborAuxdata id auxdata.region [auxdata.region] with
          auxdataChanged := true } := by
  have hfit : ¬ auxdata.expected.length > compiled.length - auxdata.offset := by
    have : auxdata.offset + auxdata.expected.length ≤ compiled.length := hin
    omega
  rw [applyAuxdata, hdecode]
  simp only
  rw [if_neg hfit]
  rfl

/-- **The phase over the auxdata**: it copies the ranges that changed. -/
theorem auxdata_run (hlen : compiled.length ≤ deployed.length)
    {entries : List (String × AuxdataValue)}
    (hentries : ∀ e ∈ entries, e ∈ input.auxdata.entries ∧
      decodeBytecode e.2.value = .ok e.2.expected ∧ e.2.region.stop ≤ compiled.length)
    (h : overlay.Sound input deployed compiled written) :
    ∃ next, entries.foldlM (applyAuxdata deployed compiled.length) overlay = .ok next
      ∧ next.Sound input deployed compiled (written ++ (entries.map fun e => e.2).flatMap
        fun auxdata => if window deployed auxdata.region = auxdata.expected then []
          else [auxdata.region])
      ∧ (next.auxdataChanged = true ↔ overlay.auxdataChanged = true
        ∨ ∃ e ∈ entries, window deployed e.2.region ≠ e.2.expected) := by
  induction entries generalizing overlay written with
  | nil =>
    refine ⟨overlay, rfl, ?_, ?_⟩
    · rw [map_nil, flatMap_nil, append_nil]
      exact h
    · constructor
      · exact .inl
      · rintro (hc | ⟨e, he, -⟩)
        · exact hc
        · cases he
  | cons e rest ih =>
    obtain ⟨id, auxdata⟩ := e
    obtain ⟨hmem, hdecode, hin⟩ := hentries (id, auxdata) mem_cons_self
    have hrest := fun e he => hentries e (mem_cons_of_mem (id, auxdata) he)
    rw [foldlM_cons, applyAuxdata_eq hdecode hin]
    by_cases heq : window deployed auxdata.region = auxdata.expected
    · -- auxdata that did not change is left as it is
      rw [if_pos heq]
      obtain ⟨next, hrun, hsound, hchanged⟩ := ih hrest h
      refine ⟨next, hrun, ?_, ?_⟩
      · rw [map_cons, flatMap_cons, if_pos heq, nil_append]
        exact hsound
      · rw [hchanged, exists_mem_cons_iff]
        exact or_congr_right (or_iff_right (not_not.mpr heq)).symm
    · rw [if_neg heq]
      have hocc : ∀ r ∈ [auxdata.region], r.stop ≤ compiled.length
          ∧ input.Occurs .cborAuxdata id r := by
        intro r hr
        rw [mem_singleton.mp hr]
        exact ⟨hin, auxdata, hmem, rfl⟩
      have hreason : TransformationReason.cborAuxdata ≠ .constructorArguments := by decide
      have happly := h.apply hlen hreason hocc (mem_singleton.mpr rfl)
      -- soundness does not read the flag
      have hflagged : Overlay.Sound input deployed compiled (written ++ [auxdata.region])
          { overlay.apply deployed .cborAuxdata id auxdata.region [auxdata.region] with
            auxdataChanged := true } :=
        ⟨happly.mix, happly.marks, happly.stored, happly.present, happly.within⟩
      obtain ⟨next, hrun, hsound, hchanged⟩ := ih hrest hflagged
      refine ⟨next, hrun, ?_, ?_⟩
      · rw [map_cons, flatMap_cons, if_neg heq, ← append_assoc]
        exact hsound
      · rw [hchanged]
        constructor
        · intro _
          exact .inr ⟨(id, auxdata), mem_cons_self, heq⟩
        · intro _
          exact .inl rfl

end Phases

/-! ## The overlay as a whole -/

section Whole

variable {input : CodeTransformationInput A} {deployed compiled : List Byte}

/-- The auxdata ranges whose deployed bytes are not the declared ones. -/
def CodeTransformationInput.changedAuxdata (input : CodeTransformationInput A)
    (deployed : List Byte) : List BytecodeRange :=
  (input.auxdata.sortedEntries.map fun e => e.2).flatMap fun auxdata =>
    if window deployed auxdata.region = auxdata.expected then [] else [auxdata.region]

/-- The ranges that are overlaid: changed auxdata, libraries and immutables. -/
def CodeTransformationInput.overlaid (input : CodeTransformationInput A)
    (deployed : List Byte) : List BytecodeRange :=
  input.changedAuxdata deployed ++ input.libraries.flatMap snd
    ++ input.immutables.flatMap snd

/-- Every library and every immutable carries one value. -/
def Consistent (input : CodeTransformationInput A) (deployed : List Byte) : Prop :=
  ∀ e ∈ input.libraries ++ input.immutables, SameValue deployed e.2

instance (input : CodeTransformationInput A) (deployed : List Byte) :
    Decidable (Consistent input deployed) :=
  inferInstanceAs
    (Decidable (∀ e ∈ input.libraries ++ input.immutables, SameValue deployed e.2))

/-- **The overlay phases** on ranges inside the code: they fail exactly when a library
    or an immutable carries two values. -/
theorem overlayCode_run (hin : Inside input compiled.length)
    (hlen : compiled.length ≤ deployed.length) :
    if Consistent input deployed then
      ∃ overlay, overlayCode input deployed compiled = .ok overlay
        ∧ overlay.Sound input deployed compiled (input.overlaid deployed)
        ∧ (overlay.auxdataChanged = true ↔
          ∃ e ∈ input.auxdata.entries, window deployed e.2.region ≠ e.2.expected)
    else overlayCode input deployed compiled = .error repeatedValuesError := by
  have hauxdata : ∀ e ∈ input.auxdata.sortedEntries, e ∈ input.auxdata.entries ∧
      decodeBytecode e.2.value = .ok e.2.expected ∧ e.2.region.stop ≤ compiled.length := by
    intro e he
    have he := (mem_sortedEntries _ _).mp he
    obtain ⟨hdecode, -, hstop⟩ := hin.auxdata e he
    exact ⟨he, hdecode, hstop⟩
  obtain ⟨first, haux, hfirst, hchanged⟩ :=
    auxdata_run hlen hauxdata (Overlay.Sound.start input deployed compiled)
  have hlibrary : TransformationReason.library ≠ .constructorArguments := by decide
  have himmutable : TransformationReason.immutable ≠ .constructorArguments := by decide
  have hlibs := references_run hlibrary hlen input.libraries
    (fun e he =>
      ⟨(hin.libraries e he).1, fun r hr => ⟨(hin.libraries e he).2 r hr, e, he, rfl, hr⟩⟩)
    hfirst
  -- auxdata never fails, so the libraries and then the immutables decide
  have hphases : overlayCode input deployed compiled
      = (input.libraries.foldlM (applyReference deployed .library) first
        >>= fun overlay => input.immutables.foldlM (applyReference deployed .immutable)
          overlay) := by
    rw [overlayCode, haux]
    rfl
  rw [hphases]
  have hsplit : Consistent input deployed ↔ (∀ e ∈ input.libraries, SameValue deployed e.2)
      ∧ ∀ e ∈ input.immutables, SameValue deployed e.2 := by
    unfold Consistent
    rw [forall_mem_append]
  by_cases hlibsame : ∀ e ∈ input.libraries, SameValue deployed e.2
  · rw [if_pos hlibsame] at hlibs
    obtain ⟨second, hrun, hsecond, hchanged2⟩ := hlibs
    have himms := references_run himmutable hlen input.immutables (fun e he =>
        ⟨(hin.immutables e he).1,
          fun r hr => ⟨(hin.immutables e he).2 r hr, e, he, rfl, hr⟩⟩)
      hsecond
    rw [hrun]
    by_cases himmsame : ∀ e ∈ input.immutables, SameValue deployed e.2
    · rw [if_pos himmsame] at himms
      obtain ⟨third, hrun3, hthird, hchanged3⟩ := himms
      rw [if_pos (hsplit.mpr ⟨hlibsame, himmsame⟩)]
      refine ⟨third, hrun3, hthird, ?_⟩
      rw [hchanged3, hchanged2, hchanged]
      simp only [mem_sortedEntries]
      exact or_iff_right (by rintro ⟨⟩)
    · rw [if_neg himmsame] at himms
      rw [if_neg (fun h => himmsame (hsplit.mp h).2)]
      exact himms
  · rw [if_neg hlibsame] at hlibs
    rw [if_neg (fun h => hlibsame (hsplit.mp h).1), hlibs]
    rfl

/-- The declared auxdata is that of the compiled code. -/
def AuxdataOf (input : CodeTransformationInput A) (compiled : List Byte) : Prop :=
  ∀ e ∈ input.auxdata.entries, window compiled e.2.region = e.2.expected

/-- Auxdata that did not change need not be overlaid. -/
theorem agreeOutside_declared (haux : AuxdataOf input compiled) :
    AgreeOutside (input.overlaid deployed) deployed compiled
      ↔ AgreeOutside input.declared deployed compiled := by
  have hchanged : ∀ r, r ∈ input.changedAuxdata deployed ↔
      ∃ e ∈ input.auxdata.entries, window deployed e.2.region ≠ e.2.expected
        ∧ r = e.2.region := by
    intro r
    unfold CodeTransformationInput.changedAuxdata
    simp only [mem_flatMap, mem_map, mem_sortedEntries]
    constructor
    · rintro ⟨auxdata, ⟨e, he, rfl⟩, hr⟩
      by_cases heq : window deployed e.2.region = e.2.expected
      · rw [if_pos heq] at hr
        cases hr
      · rw [if_neg heq] at hr
        exact ⟨e, he, heq, mem_singleton.mp hr⟩
    · rintro ⟨e, he, hne, rfl⟩
      refine ⟨e.2, ⟨e, he, rfl⟩, ?_⟩
      rw [if_neg hne]
      exact mem_singleton.mpr rfl
  constructor
  · intro h i hi hc
    refine h i hi ?_
    rintro ⟨r, hr, hri⟩
    refine hc ⟨r, ?_, hri⟩
    rcases mem_append.mp hr with hr | hr
    · rcases mem_append.mp hr with hr | hr
      · obtain ⟨e, he, -, rfl⟩ := (hchanged r).mp hr
        refine mem_append_left _ (mem_append_left _ (mem_map.mpr ⟨e, ?_, rfl⟩))
        exact (mem_sortedEntries _ _).mpr he
      · exact mem_append_left _ (mem_append_right _ hr)
    · exact mem_append_right _ hr
  · intro h i hi hc
    by_cases hd : Covered input.declared i
    · -- a declared position that was not written lies in unchanged auxdata
      obtain ⟨r, hr, hri⟩ := hd
      rcases mem_append.mp hr with hr' | hr'
      · rcases mem_append.mp hr' with hr'' | hr''
        · obtain ⟨e, he, rfl⟩ := mem_map.mp hr''
          have he := (mem_sortedEntries _ _).mp he
          by_cases heq : window deployed e.2.region = e.2.expected
          · rw [← haux e he] at heq
            exact window_eq_iff.mp heq i hri
          · refine absurd ⟨e.2.region, ?_, hri⟩ hc
            exact mem_append_left _ (mem_append_left _ ((hchanged _).mpr ⟨e, he, heq, rfl⟩))
        · exact absurd ⟨r, mem_append_left _ (mem_append_right _ hr''), hri⟩ hc
      · exact absurd ⟨r, mem_append_right _ hr', hri⟩ hc
    · exact h i hi hd

end Whole

/-! ## The end of the match -/

section Finish

variable [AbiLibrary A] {input : CodeTransformationInput A} {deployed compiled : List Byte}
  {overlay : Overlay}

/-- The deployed code has the length of the compiled code; creation code may have
    constructor arguments behind it. -/
def Shape (input : CodeTransformationInput A) (deployed compiled : List Byte) : Prop :=
  if input.creation = true then
    compiled.length ≤ deployed.length
      ∧ validateConstructorArguments input.abi (deployed.drop compiled.length) = .ok ()
  else deployed.length = compiled.length

instance (input : CodeTransformationInput A) (deployed compiled : List Byte) :
    Decidable (Shape input deployed compiled) := by
  unfold Shape
  infer_instance

theorem shape_of_creation (hc : input.creation = true) : Shape input deployed compiled ↔
    compiled.length ≤ deployed.length
      ∧ validateConstructorArguments input.abi (deployed.drop compiled.length) = .ok () := by
  rw [Shape, if_pos hc]

theorem shape_of_runtime (hc : input.creation = false) : Shape input deployed compiled ↔
    deployed.length = compiled.length := by
  rw [Shape, if_neg (by rw [hc]; exact fun h => Bool.noConfusion h)]

/-- The overlay with the constructor arguments of creation code. -/
def Overlay.withArguments (overlay : Overlay) (input : CodeTransformationInput A)
    (deployed : List Byte) (compiledLength : Nat) : Overlay :=
  if input.creation = true ∧ deployed.drop compiledLength ≠ [] then
    { overlay with
      transformed := overlay.transformed ++ deployed.drop compiledLength
      transformations := overlay.transformations
        ++ [⟨.insert, .constructorArguments, compiledLength, ""⟩]
      values := overlay.values.store .constructorArguments "" (deployed.drop compiledLength) }
  else overlay

section

omit [AbiLibrary A]

@[simp] theorem Overlay.withArguments_auxdataChanged (overlay : Overlay)
    (input : CodeTransformationInput A) (deployed : List Byte) (compiledLength : Nat) :
    (overlay.withArguments input deployed compiledLength).auxdataChanged
      = overlay.auxdataChanged := by
  unfold Overlay.withArguments
  split <;> rfl

/-- A match is full iff there is auxdata and none of it changed. -/
theorem matchDetails_full : (matchDetails input overlay).matchType = .fullMatch ↔
      input.auxdata.entries ≠ [] ∧ overlay.auxdataChanged = false := by
  unfold matchDetails
  by_cases hfull : input.auxdata.entries ≠ [] ∧ overlay.auxdataChanged = false
  · exact ⟨fun _ => hfull, fun _ => if_pos hfull⟩
  · refine ⟨fun h => ?_, fun h => absurd h hfull⟩
    rw [if_neg hfull] at h
    cases h

/-- The arguments are what the deployed code has behind the compiled length. -/
theorem Overlay.withArguments_transformed
    (hshape : input.creation = false → deployed.length = compiled.length) :
    (overlay.withArguments input deployed compiled.length).transformed
      = overlay.transformed ++ deployed.drop compiled.length := by
  unfold Overlay.withArguments
  by_cases hargs : input.creation = true ∧ deployed.drop compiled.length ≠ []
  · rw [if_pos hargs]
  · rw [if_neg hargs]
    have hnil : deployed.drop compiled.length = [] := by
      cases hc : input.creation with
      | false => rw [← hshape hc, drop_length]
      | true => exact not_not.mp (fun hne => hargs ⟨hc, hne⟩)
    rw [hnil, append_nil]

end

/-- **The last part of the match.** -/
theorem finishMatch_eq (hlen : compiled.length ≤ deployed.length)
    (hequal : input.creation = false → deployed.length = compiled.length)
    (htransformed : overlay.transformed.length = compiled.length) :
    finishMatch input deployed compiled overlay
      = if Shape input deployed compiled ∧ deployed.take compiled.length
        = overlay.transformed then
          some (matchDetails input (overlay.withArguments input deployed compiled.length))
        else none := by
  -- the arguments are taken from the deployed code, so the front decides
  have hcompare : deployed = (overlay.withArguments input deployed compiled.length).transformed
      ↔ deployed.take compiled.length = overlay.transformed := by
    rw [Overlay.withArguments_transformed hequal]
    constructor
    · intro h
      have htake := congrArg (List.take compiled.length) h
      rwa [take_append_of_le_length (le_of_eq htransformed.symm), ← htransformed,
        take_length, htransformed] at htake
    · intro h
      rw [← h, take_append_drop]
  -- runtime code has no arguments, and its length was compared before
  have happend : appendArguments input deployed compiled.length overlay
      = if Shape input deployed compiled then
          some (overlay.withArguments input deployed compiled.length)
        else none := by
    by_cases hc : input.creation = true
    · have hfalse : ¬ input.creation = false := by
        rw [hc]
        exact fun h => Bool.noConfusion h
      rw [appendArguments, if_neg hfalse]
      cases hv : validateConstructorArguments input.abi (deployed.drop compiled.length) with
      | error e =>
        have hno : ¬ Shape input deployed compiled := by
          rw [shape_of_creation hc, hv]
          exact fun h => by cases h.2
        rw [if_neg hno]
      | ok u =>
        have hyes : Shape input deployed compiled := (shape_of_creation hc).mpr ⟨hlen, hv⟩
        rw [if_pos hyes, Overlay.withArguments]
        show (if deployed.drop compiled.length = [] then _ else _) = _
        by_cases hnil : deployed.drop compiled.length = []
        · rw [if_pos hnil,
            if_neg (show ¬ (input.creation = true ∧ deployed.drop compiled.length ≠ []) from
              fun h => h.2 hnil)]
        · rw [if_neg hnil,
            if_pos (show input.creation = true ∧ deployed.drop compiled.length ≠ [] from
              ⟨hc, hnil⟩)]
    · have hfalse : input.creation = false := Bool.eq_false_iff.mpr hc
      rw [appendArguments, if_pos hfalse, if_pos ((shape_of_runtime hfalse).mpr (hequal hfalse)),
        Overlay.withArguments, if_neg (fun h => hc h.1)]
  rw [finishMatch, happend]
  by_cases hshape : Shape input deployed compiled
  · rw [if_pos hshape]
    simp only
    by_cases hcode : deployed.take compiled.length = overlay.transformed
    · rw [if_pos (hcompare.mpr hcode), if_pos ⟨hshape, hcode⟩]
    · rw [if_neg (fun h => hcode (hcompare.mp h)), if_neg (fun h => hcode h.2)]
  · rw [if_neg hshape, if_neg (fun h => hshape h.1)]

end Finish

end Verify
