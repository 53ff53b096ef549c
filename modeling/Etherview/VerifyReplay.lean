import Etherview.Texts
import Etherview.VerifyMatching

/-! # Replaying a match

    The transformations of a match say how the deployed code arises from the compiled
    code: replace the bytes at an offset by the value of an identifier, and append the
    constructor arguments.  They are sorted by offset, so they are replayed in another
    order than the phases wrote them; the ranges are apart from each other as far as
    they carry different bytes, and any order gives the same mixture (`replay_run`).

    The main result `transformed_code_exact` puts the phases, the end of the match and
    the replay together. -/

namespace Verify

open Hex Patch Transact List

variable {A : Type}

/-! ## Replaying transformations -/

/-- The bytes that a transformation writes. -/
def TransformationValues.valueOf (values : TransformationValues) (t : Transformation) :
    Option (List Byte) :=
  (values.lookup t.reason t.id).bind Hex.parse

/-- Replace at the offset by the value of the identifier, or insert the value there. -/
def replayOne (values : TransformationValues) (code : List Byte) (t : Transformation) :
    Option (List Byte) :=
  (values.valueOf t).map fun value =>
    match t.kind with
    | .replace => write code t.offset value
    | .insert => code.take t.offset ++ value ++ code.drop t.offset

/-- Replay the transformations of a match on a code. -/
def VerificationMatchDetails.replay (details : VerificationMatchDetails) (compiled : List Byte) :
    Option (List Byte) :=
  details.transformations.foldlM (replayOne details.values) compiled

section Replay

variable {deployed compiled arguments : List Byte} {values : TransformationValues}

/-- The range a replacement writes. -/
def TransformationValues.regionOf (values : TransformationValues) (t : Transformation) :
    BytecodeRange :=
  ⟨t.offset, ((values.valueOf t).getD []).length⟩

/-- A replacement by the deployed bytes of the range it writes. -/
def Replaces (deployed : List Byte) (compiledLength : Nat) (values : TransformationValues)
    (t : Transformation) : Prop :=
  t.kind = .replace ∧ values.valueOf t = some (window deployed (values.regionOf t))
    ∧ (values.regionOf t).stop ≤ compiledLength

/-- An insertion of the arguments behind the code. -/
def Inserts (arguments : List Byte) (compiledLength : Nat) (values : TransformationValues)
    (t : Transformation) : Prop :=
  t.kind = .insert ∧ t.offset = compiledLength ∧ values.valueOf t = some arguments

/-- Replaying in any order: the code is a mixture over the replaced ranges, with the
    arguments behind it once for every insertion. -/
theorem replay_run (hlen : compiled.length ≤ deployed.length) {ts : List Transformation}
    (hts : ∀ t ∈ ts, Replaces deployed compiled.length values t
      ∨ Inserts arguments compiled.length values t)
    {regions : List BytecodeRange} {body : List Byte} (hbody : Mix deployed compiled regions body)
    (tail : List Byte) :
    ∃ next, ts.foldlM (replayOne values) (body ++ tail)
        = some (next ++ ((replicate (ts.countP (fun t => t.kind == .insert))
            arguments).flatten ++ tail))
      ∧ Mix deployed compiled (regions ++ (ts.filter (fun t => t.kind == .replace)).map
          values.regionOf) next := by
  induction ts generalizing regions body tail with
  | nil =>
    refine ⟨body, rfl, ?_⟩
    rw [filter_nil, map_nil, append_nil]
    exact hbody
  | cons t rest ih =>
    have hrest := fun s hs => hts s (mem_cons_of_mem t hs)
    rw [foldlM_cons]
    rcases hts t mem_cons_self with ⟨hkind, hvalue, hstop⟩ | ⟨hkind, hoffset, hvalue⟩
    · -- a replacement writes inside the body
      have hfit : t.offset + (window deployed (values.regionOf t)).length ≤ body.length := by
        rw [length_window (le_trans hstop hlen), hbody.length_eq]
        exact hstop
      have hone : replayOne values (body ++ tail) t
          = some (write body t.offset (window deployed (values.regionOf t)) ++ tail) := by
        rw [replayOne, hvalue, Option.map_some, hkind, write_append hfit]
      obtain ⟨next, hrun, hnext⟩ := ih hrest
        (hbody.write (le_trans hstop hlen) hstop) tail
      refine ⟨next, ?_, ?_⟩
      · rw [hone, countP_cons_of_neg (by rw [hkind]; decide)]
        exact hrun
      · rw [filter_cons_of_pos (by rw [hkind]; decide), map_cons]
        refine hnext.congr (fun i => ?_)
        simp only [Covered, mem_append, mem_cons, or_assoc, or_left_comm]
    · -- an insertion goes between the body and what follows it
      have hone : replayOne values (body ++ tail) t = some (body ++ (arguments ++ tail)) := by
        rw [replayOne, hvalue, Option.map_some, hkind, hoffset, ← hbody.length_eq]
        simp only [take_left, drop_left, append_assoc]
      obtain ⟨next, hrun, hnext⟩ := ih hrest hbody (arguments ++ tail)
      refine ⟨next, ?_, ?_⟩
      · rw [hone, countP_cons_of_pos (by rw [hkind]; decide), replicate_succ',
          flatten_append, flatten_singleton]
        show rest.foldlM _ _ = _
        rw [hrun, append_assoc]
      · rw [filter_cons_of_neg (by rw [hkind]; decide)]
        exact hnext

/-- Replaying a list of replacements and insertions that was sorted. -/
theorem replay_perm (hlen : compiled.length ≤ deployed.length)
    {transformations inserts ts : List Transformation}
    (hperm : ts.Perm (transformations ++ inserts))
    (hreplace : ∀ t ∈ transformations, Replaces deployed compiled.length values t)
    (hinsert : ∀ t ∈ inserts, Inserts arguments compiled.length values t) :
    ∃ next, ts.foldlM (replayOne values) compiled
        = some (next ++ (replicate inserts.length arguments).flatten)
      ∧ Mix deployed compiled (transformations.map values.regionOf) next := by
  have heach : ∀ t ∈ ts, Replaces deployed compiled.length values t
      ∨ Inserts arguments compiled.length values t :=
    fun t ht => (mem_append.mp (hperm.mem_iff.mp ht)).imp (hreplace t) (hinsert t)
  obtain ⟨next, hrun, hnext⟩ := replay_run hlen heach (Mix.base deployed compiled) []
  have hcount : ts.countP (fun t => t.kind == .insert) = inserts.length := by
    rw [hperm.countP_eq, countP_append, countP_eq_zero.mpr, zero_add, countP_eq_length.mpr]
    · intro t ht
      rw [(hinsert t ht).1]
      rfl
    · intro t ht
      rw [(hreplace t ht).1]
      decide
  have hfilter : (transformations ++ inserts).filter (fun t => t.kind == .replace)
      = transformations := by
    rw [filter_append, filter_eq_self.mpr, filter_eq_nil_iff.mpr, append_nil]
    · intro t ht
      rw [(hinsert t ht).1]
      decide
    · intro t ht
      rw [(hreplace t ht).1]
      rfl
  refine ⟨next, ?_, ?_⟩
  · rw [append_nil, append_nil, hcount] at hrun
    exact hrun
  · have hsame := (hperm.filter (fun t => t.kind == .replace)).map values.regionOf
    rw [hfilter] at hsame
    refine hnext.congr (fun i => ?_)
    unfold Covered
    simp only [nil_append, hsame.mem_iff]

/-- The transformation for the constructor arguments. -/
def argumentMark (compiledLength : Nat) : Transformation :=
  ⟨.insert, .constructorArguments, compiledLength, ""⟩

section

variable (values : TransformationValues)

theorem valueOf_argumentMark (arguments : List Byte) (n : Nat) :
    (values.store .constructorArguments "" arguments).valueOf (argumentMark n)
      = some arguments := by
  have hne : Hex.text arguments ≠ "" := by
    intro h
    have := congrArg String.toList h
    rw [Hex.text, String.toList_ofList] at this
    cases this
  rw [TransformationValues.valueOf, argumentMark, TransformationValues.lookup,
    TransformationValues.store, if_neg hne, Option.bind_some, Hex.parse_text]

variable {t : Transformation}

section

variable (hreason : t.reason ≠ .constructorArguments) (arguments : List Byte)
include hreason

/-- Storing the arguments leaves the other values alone. -/
theorem valueOf_store_arguments :
    (values.store .constructorArguments "" arguments).valueOf t = values.valueOf t := by
  unfold TransformationValues.valueOf
  cases h : t.reason with
  | constructorArguments => exact absurd h hreason
  | _ => rfl

theorem regionOf_store_arguments :
    (values.store .constructorArguments "" arguments).regionOf t = values.regionOf t := by
  rw [TransformationValues.regionOf, TransformationValues.regionOf,
    valueOf_store_arguments values hreason]

end

end

theorem Replaces.store_arguments {n : Nat}
    (h : Replaces deployed n values t) (hreason : t.reason ≠ .constructorArguments)
    (arguments : List Byte) :
    Replaces deployed n (values.store .constructorArguments "" arguments) t := by
  unfold Replaces
  rw [valueOf_store_arguments values hreason, regionOf_store_arguments values hreason]
  exact h

end Replay

/-! ## The match -/

/-- Libraries with one identifier carry one value. -/
def IdentifiersAgree (input : CodeTransformationInput A) (deployed : List Byte) : Prop :=
  ∀ e ∈ input.libraries, ∀ f ∈ input.libraries, e.1 = f.1 →
    ∀ r ∈ e.2, ∀ s ∈ f.2, window deployed r = window deployed s

/-- The part behind the last colon of a text determines it. -/
private theorem split_last_colon {a b c d : List Char} (hb : ':' ∉ b) (hd : ':' ∉ d)
    (h : a ++ ':' :: b = c ++ ':' :: d) : a = c ∧ b = d := by
  have hreverse := congrArg List.reverse h
  simp only [reverse_append, reverse_cons, append_assoc, singleton_append] at hreverse
  have hhead : ∀ (l : List Char), ∀ c ∈ (':' :: l).head?, c = ':' :=
    fun l c hc => (Option.mem_some.mp hc).symm
  obtain ⟨hbd, hac⟩ := Texts.separated_inj (mt mem_reverse.mp hb) (mt mem_reverse.mp hd)
    (hhead _) (hhead _) hreverse
  exact ⟨reverse_injective (List.cons.inj hac).2, reverse_injective hbd⟩

variable {input : CodeTransformationInput A} {deployed : List Byte}

/-- Library names without a colon have identifiers of their own. -/
theorem identifiersAgree_of_plain
    (hplain : ∀ source ∈ input.linkReferences.entries, ∀ library ∈ source.2.entries,
      ':' ∉ library.1.toList)
    (hcons : Consistent input deployed) : IdentifiersAgree input deployed := by
  intro e he f hf hid r hr s hs
  obtain ⟨source, hsource, library, hlibrary, rfl⟩ := mem_libraries.mp he
  obtain ⟨source', hsource', library', hlibrary', rfl⟩ := mem_libraries.mp hf
  have hchars := congrArg String.toList hid
  simp only [String.toList_append, append_assoc] at hchars
  obtain ⟨hs1, hs2⟩ := split_last_colon (hplain source hsource library hlibrary)
    (hplain source' hsource' library' hlibrary') hchars
  have hsources : source = source' :=
    Prod.ext (String.toList_inj.mp hs1) (GoMap.value_unique _ hsource
      (by rw [String.toList_inj.mp hs1]; exact hsource'))
  subst hsources
  have hlibraries : library = library' :=
    Prod.ext (String.toList_inj.mp hs2) (GoMap.value_unique _ hlibrary
      (by rw [String.toList_inj.mp hs2]; exact hlibrary'))
  subst hlibraries
  exact hcons _ (mem_append_left _ he) r hr s hs

/-- Ranges with one identifier carry one value. -/
theorem occurs_window (hids : IdentifiersAgree input deployed) (hcons : Consistent input deployed)
    {reason : TransformationReason} {id : String} {r s : BytecodeRange}
    (hr : input.Occurs reason id r) (hs : input.Occurs reason id s) :
    window deployed r = window deployed s := by
  cases reason with
  | cborAuxdata =>
    obtain ⟨a, ha, rfl⟩ := hr
    obtain ⟨b, hb, rfl⟩ := hs
    rw [GoMap.value_unique _ ha hb]
  | library =>
    obtain ⟨e, he, rfl, hre⟩ := hr
    obtain ⟨f, hf, hid, hsf⟩ := hs
    exact hids e he f hf hid.symm r hre s hsf
  | immutable =>
    obtain ⟨⟨k, v⟩, he, rfl, hre⟩ := hr
    obtain ⟨⟨k', v'⟩, hf, rfl, hsf⟩ := hs
    have hvalues : v = v' := GoMap.value_unique _ (mem_immutables.mp he) (mem_immutables.mp hf)
    subst hvalues
    exact hcons (k', v) (mem_append_right _ he) r hre s hsf
  | constructorArguments => exact hr.elim

section Match

variable [AbiLibrary A] {input : CodeTransformationInput A} {deployed compiled : List Byte}

/-- The lengths that reach the overlay. -/
def LengthFits (input : CodeTransformationInput A) (deployed compiled : List Byte) : Prop :=
  compiled.length ≤ deployed.length
    ∧ (input.creation = false → deployed.length = compiled.length)

instance (input : CodeTransformationInput A) (deployed compiled : List Byte) :
    Decidable (LengthFits input deployed compiled) :=
  inferInstanceAs (Decidable (_ ∧ _))

theorem Shape.lengthFits (h : Shape input deployed compiled) :
    LengthFits input deployed compiled := by
  cases hc : input.creation with
  | true => exact ⟨((shape_of_creation hc).mp h).1, fun hf => by rw [hc] at hf; cases hf⟩
  | false =>
    have hlen := (shape_of_runtime hc).mp h
    exact ⟨hlen.ge, fun _ => hlen⟩

/-- `matchTransformedCode` behind its two length checks. -/
theorem matchTransformedCode_eq : matchTransformedCode deployed compiled input
      = if LengthFits input deployed compiled then do
          let ranges ← collectTransformationRanges input
          validateRanges ranges compiled.length
          let overlay ← overlayCode input deployed compiled
          return finishMatch input deployed compiled overlay
        else .ok none := by
  unfold matchTransformedCode
  by_cases hfit : LengthFits input deployed compiled
  · rw [if_pos hfit, if_neg (not_lt.mpr hfit.1), if_neg (fun h => h.2 (hfit.2 h.1))]
  · rw [if_neg hfit]
    by_cases hlt : deployed.length < compiled.length
    · rw [if_pos hlt]
    · rw [if_neg hlt, if_pos]
      by_contra hno
      refine hfit ⟨not_lt.mp hlt, fun hc => ?_⟩
      by_contra hne
      exact hno ⟨hc, hne⟩

/-- On an accepted input the collection and the validation pass. -/
theorem matchTransformedCode_accepted (hacc : input.Accepted compiled.length)
    (hfit : LengthFits input deployed compiled) :
    matchTransformedCode deployed compiled input
      = (overlayCode input deployed compiled).map (finishMatch input deployed compiled) := by
  obtain ⟨ranges, hcollect, hvalid⟩ := hacc
  rw [matchTransformedCode_eq, if_pos hfit, hcollect]
  show (validateRanges ranges compiled.length >>= fun _ => _) = _
  rw [hvalid]
  show (overlayCode input deployed compiled >>= fun overlay => _) = _
  cases overlayCode input deployed compiled with
  | error e => rfl
  | ok overlay => rfl

/-- **When the matcher fails**: the lengths fit, and the ranges are malformed or a
    library or immutable carries two values. -/
theorem matchTransformedCode_error_iff :
    (∃ err, matchTransformedCode deployed compiled input = .error err) ↔
      LengthFits input deployed compiled
        ∧ ¬ (input.Accepted compiled.length ∧ Consistent input deployed) := by
  by_cases hfit : LengthFits input deployed compiled
  · by_cases hacc : input.Accepted compiled.length
    · rw [matchTransformedCode_accepted hacc hfit]
      have hrun := overlayCode_run hacc.inside hfit.1
      by_cases hcons : Consistent input deployed
      · rw [if_pos hcons] at hrun
        obtain ⟨overlay, hoverlay, -⟩ := hrun
        rw [hoverlay]
        exact ⟨fun ⟨err, h⟩ => (by cases h), fun h => absurd ⟨hacc, hcons⟩ h.2⟩
      · rw [if_neg hcons] at hrun
        rw [hrun]
        exact ⟨fun _ => ⟨hfit, fun h => hcons h.2⟩, fun _ => ⟨_, rfl⟩⟩
    · refine ⟨fun _ => ⟨hfit, fun h => hacc h.1⟩, fun _ => ?_⟩
      rw [matchTransformedCode_eq, if_pos hfit]
      cases hcollect : collectTransformationRanges input with
      | error err => exact ⟨err, rfl⟩
      | ok ranges =>
        cases hvalid : validateRanges ranges compiled.length with
        | error err => exact ⟨err, bind_eq_error.mpr (.inr ⟨ranges, rfl,
            bind_eq_error.mpr (.inl hvalid)⟩)⟩
        | ok u => exact absurd ⟨ranges, hcollect, hvalid⟩ hacc
  · rw [matchTransformedCode_eq, if_neg hfit]
    exact ⟨fun ⟨err, h⟩ => (by cases h), fun h => absurd h.1 hfit⟩

/-- **A match** on an accepted input: the code has the shape, it agrees outside the
    overlaid ranges, and the details are those of the overlay. -/
theorem matchTransformedCode_some (hacc : input.Accepted compiled.length)
    (hcons : Consistent input deployed) {details : VerificationMatchDetails} :
    matchTransformedCode deployed compiled input = .ok (some details) ↔
      Shape input deployed compiled ∧ AgreeOutside (input.overlaid deployed) deployed compiled
        ∧ ∃ overlay, overlayCode input deployed compiled = .ok overlay
          ∧ details = matchDetails input
            (overlay.withArguments input deployed compiled.length) := by
  by_cases hfit : LengthFits input deployed compiled
  · have hrun := overlayCode_run hacc.inside hfit.1
    rw [if_pos hcons] at hrun
    obtain ⟨overlay, hoverlay, hsound, -⟩ := hrun
    have hagree : deployed.take compiled.length = overlay.transformed
        ↔ AgreeOutside (input.overlaid deployed) deployed compiled := hsound.mix.eq_iff hfit.1
    rw [matchTransformedCode_accepted hacc hfit, hoverlay]
    show Except.ok (finishMatch input deployed compiled overlay) = _ ↔ _
    rw [finishMatch_eq hfit.1 hfit.2 hsound.mix.length_eq]
    constructor
    · intro h
      have h := Except.ok.inj h
      by_cases hall : Shape input deployed compiled
          ∧ deployed.take compiled.length = overlay.transformed
      · rw [if_pos hall] at h
        exact ⟨hall.1, hagree.mp hall.2, overlay, rfl, (Option.some.inj h).symm⟩
      · rw [if_neg hall] at h
        cases h
    · rintro ⟨hshape, hag, overlay', hoverlay', rfl⟩
      cases hoverlay'
      rw [if_pos ⟨hshape, hagree.mpr hag⟩]
  · rw [matchTransformedCode_eq, if_neg hfit]
    exact ⟨fun h => (by cases h), fun h => absurd h.1.lengthFits hfit⟩

variable {overlay : Overlay} {written : List BytecodeRange} {t : Transformation}

omit [AbiLibrary A] in
/-- The stored value of a transformation is what its range carries. -/
theorem valueOf_of_sound (hsound : overlay.Sound input deployed compiled written)
    (hlen : compiled.length ≤ deployed.length) (hids : IdentifiersAgree input deployed)
    (hcons : Consistent input deployed) {r : BytecodeRange}
    (ht : t ∈ overlay.transformations) (hmark : Marks input t r) (hr : r ∈ written) :
    overlay.values.valueOf t = some (window deployed r) ∧ overlay.values.regionOf t = r := by
  obtain ⟨-, hoffset, hocc⟩ := hmark
  have hvalue : overlay.values.valueOf t = some (window deployed r) := by
    obtain ⟨text, htext⟩ := Option.ne_none_iff_exists'.mp (hsound.present t ht)
    obtain ⟨s, hs, rfl⟩ := hsound.stored _ _ _ htext
    rw [TransformationValues.valueOf, htext, Option.bind_some, Hex.parse_text,
      occurs_window hids hcons hs hocc]
  refine ⟨hvalue, ?_⟩
  rw [TransformationValues.regionOf, hvalue, hoffset, Option.getD_some,
    length_window (le_trans (hsound.within r hr) hlen)]

variable {R : Transformation → BytecodeRange → Prop} {transformations : List Transformation}

private theorem marked_of_mem (h : Forall₂ R transformations written)
    (ht : t ∈ transformations) : ∃ r ∈ written, R t r := by
  induction h with
  | nil => cases ht
  | cons hmark _ ih =>
    rcases mem_cons.mp ht with rfl | ht
    · exact ⟨_, mem_cons_self, hmark⟩
    · obtain ⟨r, hr, hR⟩ := ih ht
      exact ⟨r, mem_cons_of_mem _ hr, hR⟩

/-- The list that marks the written ranges names them. -/
theorem map_regionOf_eq {values : TransformationValues}
    (hmarks : Forall₂ R transformations written)
    (h : ∀ t ∈ transformations, ∀ r ∈ written, R t r → values.regionOf t = r) :
    transformations.map values.regionOf = written := by
  induction hmarks with
  | nil => rfl
  | @cons t r transformations written hmark _ ih =>
    rw [map_cons, h t mem_cons_self r mem_cons_self hmark,
      ih (fun t ht r hr => h t (mem_cons_of_mem _ ht) r (mem_cons_of_mem _ hr))]

omit [AbiLibrary A] in
/-- Every transformation of a sound overlay replaces a written range by its value. -/
theorem replaces_of_sound (hsound : overlay.Sound input deployed compiled written)
    (hlen : compiled.length ≤ deployed.length) (hids : IdentifiersAgree input deployed)
    (hcons : Consistent input deployed) (ht : t ∈ overlay.transformations) :
    t.reason ≠ .constructorArguments ∧ Replaces deployed compiled.length overlay.values t := by
  obtain ⟨r, hr, hmark⟩ := marked_of_mem hsound.marks ht
  obtain ⟨hvalue, hregion⟩ := valueOf_of_sound hsound hlen hids hcons ht hmark hr
  refine ⟨?_, hmark.1, ?_, ?_⟩
  · intro hreason
    have hocc := hmark.2.2
    rw [hreason] at hocc
    exact hocc
  · rw [hregion]
    exact hvalue
  · rw [hregion]
    exact hsound.within r hr

omit [AbiLibrary A] in
/-- **Replaying the transformations of a match gives the deployed code.** -/
theorem replay_match (hsound : overlay.Sound input deployed compiled written)
    (hfit : LengthFits input deployed compiled) (hids : IdentifiersAgree input deployed)
    (hcons : Consistent input deployed)
    (hcode : deployed.take compiled.length = overlay.transformed) :
    (matchDetails input (overlay.withArguments input deployed compiled.length)).replay compiled
      = some deployed := by
  -- the stored values are as long as the ranges they were read from
  have hregions : overlay.transformations.map overlay.values.regionOf = written :=
    map_regionOf_eq hsound.marks (fun t ht r hr hmark =>
      (valueOf_of_sound hsound hfit.1 hids hcons ht hmark hr).2)
  have hreplaces := fun t (ht : t ∈ overlay.transformations) =>
    replaces_of_sound hsound hfit.1 hids hcons ht
  unfold VerificationMatchDetails.replay matchDetails Overlay.withArguments
  simp only
  by_cases hargs : input.creation = true ∧ deployed.drop compiled.length ≠ []
  · -- creation code with arguments behind it
    rw [if_pos hargs]
    have hinserts : ∀ t ∈ [argumentMark compiled.length],
        Inserts (deployed.drop compiled.length) compiled.length
          (overlay.values.store .constructorArguments "" (deployed.drop compiled.length)) t := by
      intro t ht
      rw [mem_singleton.mp ht]
      exact ⟨rfl, rfl, valueOf_argumentMark _ _ _⟩
    obtain ⟨next, hrun, hnext⟩ := replay_perm hfit.1
      (perm_insertionSort transformationLE (overlay.transformations
        ++ [argumentMark compiled.length]))
      (fun t ht => (hreplaces t ht).2.store_arguments (hreplaces t ht).1 _) hinserts
    rw [map_congr_left (fun t ht => regionOf_store_arguments _ (hreplaces t ht).1 _),
      hregions] at hnext
    refine hrun.trans ?_
    rw [hnext.unique hsound.mix (fun i => Iff.rfl), ← hcode]
    simp only [length_singleton, replicate_one, flatten_singleton, take_append_drop]
  · -- nothing behind the code
    rw [if_neg hargs]
    have hperm : (overlay.transformations.insertionSort transformationLE).Perm
        (overlay.transformations ++ []) := by
      rw [append_nil]
      exact perm_insertionSort transformationLE overlay.transformations
    have hinserts : ∀ t ∈ ([] : List Transformation),
        Inserts [] compiled.length overlay.values t := fun _ h => by cases h
    obtain ⟨next, hrun, hnext⟩ :=
      replay_perm hfit.1 hperm (fun t ht => (hreplaces t ht).2) hinserts
    rw [hregions] at hnext
    have hequal : deployed.length = compiled.length := by
      cases hc : input.creation with
      | false => exact hfit.2 hc
      | true =>
        have hnil : deployed.drop compiled.length = [] :=
          not_not.mp (fun hne => hargs ⟨hc, hne⟩)
        have := congrArg List.length hnil
        rw [length_drop, length_nil] at this
        have := hfit.1
        omega
    refine hrun.trans ?_
    rw [hnext.unique hsound.mix (fun i => Iff.rfl), ← hcode, ← hequal]
    simp only [length_nil, replicate_zero, flatten_nil, append_nil, take_length]

section

variable (hacc : input.Accepted compiled.length) (hcons : Consistent input deployed)
include hacc hcons

/-- When an accepted input with consistent values matches. -/
theorem match_exists_iff :
    (∃ details, matchTransformedCode deployed compiled input = .ok (some details)) ↔
      Shape input deployed compiled
        ∧ AgreeOutside (input.overlaid deployed) deployed compiled := by
  constructor
  · rintro ⟨details, hdetails⟩
    obtain ⟨hshape, hagree, -⟩ := (matchTransformedCode_some hacc hcons).mp hdetails
    exact ⟨hshape, hagree⟩
  · rintro ⟨hshape, hagree⟩
    have hrun := overlayCode_run hacc.inside hshape.lengthFits.1
    rw [if_pos hcons] at hrun
    obtain ⟨overlay, hoverlay, -⟩ := hrun
    exact ⟨_, (matchTransformedCode_some hacc hcons).mpr
      ⟨hshape, hagree, overlay, hoverlay, rfl⟩⟩

/-- When a match is full, and what its transformations replay to. -/
theorem match_details {details : VerificationMatchDetails}
    (h : matchTransformedCode deployed compiled input = .ok (some details)) :
    (IdentifiersAgree input deployed → details.replay compiled = some deployed)
      ∧ (details.matchType = .fullMatch ↔ input.auxdata.entries ≠ []
        ∧ ∀ e ∈ input.auxdata.entries, window deployed e.2.region = e.2.expected) := by
  obtain ⟨hshape, hagree, overlay, hoverlay, rfl⟩ := (matchTransformedCode_some hacc hcons).mp h
  have hrun := overlayCode_run hacc.inside hshape.lengthFits.1
  rw [if_pos hcons] at hrun
  obtain ⟨overlay', hoverlay', hsound, hchanged⟩ := hrun
  rw [hoverlay] at hoverlay'
  cases hoverlay'
  refine ⟨fun hids => ?_, ?_⟩
  · have hcode := (hsound.mix.eq_iff hshape.lengthFits.1).mpr hagree
    exact replay_match hsound hshape.lengthFits hids hcons hcode
  · rw [matchDetails_full, Overlay.withArguments_auxdataChanged, ← Bool.not_eq_true, hchanged]
    push Not
    rfl

end

/-- **Matching up to transformations**, on an accepted input whose libraries and
    immutables each carry one value.

    The match never fails. It succeeds exactly on code of the right shape that agrees
    with the compiled code outside the overlaid ranges; where the declared auxdata is
    that of the compiled code these are as good as all declared ranges. The
    transformations replay to the deployed code where libraries with one identifier
    carry one value, and the match is full exactly when there is auxdata and all of it
    is what was declared. -/
theorem transformed_code_exact (hacc : input.Accepted compiled.length)
    (hcons : Consistent input deployed) :
    (∃ result, matchTransformedCode deployed compiled input = .ok result)
      ∧ ((∃ details, matchTransformedCode deployed compiled input = .ok (some details)) ↔
        Shape input deployed compiled ∧ AgreeOutside (input.overlaid deployed) deployed compiled)
      ∧ (AuxdataOf input compiled →
        (AgreeOutside (input.overlaid deployed) deployed compiled ↔
        AgreeOutside input.declared deployed compiled))
      ∧ ∀ details, matchTransformedCode deployed compiled input = .ok (some details) →
        (IdentifiersAgree input deployed → details.replay compiled = some deployed)
          ∧ (details.matchType = .fullMatch ↔ input.auxdata.entries ≠ []
            ∧ ∀ e ∈ input.auxdata.entries, window deployed e.2.region = e.2.expected) := by
  refine ⟨?_, match_exists_iff hacc hcons, agreeOutside_declared,
    fun _ => match_details hacc hcons⟩
  cases hm : matchTransformedCode deployed compiled input with
  | ok result => exact ⟨result, rfl⟩
  | error err =>
    have herr := matchTransformedCode_error_iff.mp ⟨err, hm⟩
    exact absurd ⟨hacc, hcons⟩ herr.2

end Match

/-! ## Codes on which it can be seen -/

/-- A compiler whose ABI documents are not arrays. -/
instance : AbiLibrary Unit where
  jsonArray _ := false
  validateConstructor _ _ := .error .invalidABI

/-- A runtime code of one auxdata byte, a library, one byte, and the library again. -/
def linkedInput : CodeTransformationInput Unit where
  auxdata := ⟨[("1", ⟨0, "0x07"⟩)], by decide⟩
  linkReferences :=
    ⟨[("lib.sol", ⟨[("Lib", [⟨1, 20⟩, ⟨22, 20⟩])], by decide⟩)], by decide⟩
  immutableReferences := .empty
  abi := ()
  creation := false

/-- A compiled code with two placeholders of a library. -/
def linkedCompiled : List Byte := [7] ++ List.replicate 20 0 ++ [9] ++ List.replicate 20 0

/-- The deployed code, with the address of the library twice. -/
def linkedDeployed : List Byte := [8] ++ List.replicate 20 5 ++ [9] ++ List.replicate 20 5

/-- The deployed code with its library in both places and new auxdata matches, and its
    three transformations replay. -/
theorem transformed_code_exact_linked :
    ∃ details, matchTransformedCode linkedDeployed linkedCompiled linkedInput = .ok (some details)
      ∧ details.replay linkedCompiled = some linkedDeployed
      ∧ details.matchType = .partialMatch := by
  have hdecode : decodeBytecode "0x07" = .ok [7] := by decide +kernel
  have hexpected : (⟨0, "0x07"⟩ : AuxdataValue).expected = [7] := by
    rw [AuxdataValue.expected, hdecode]
  have hregion : (⟨0, "0x07"⟩ : AuxdataValue).region = ⟨0, 1⟩ := by
    rw [AuxdataValue.region, hexpected]
    rfl
  have hacc : linkedInput.Accepted linkedCompiled.length := by
    refine ⟨[⟨0, 1⟩, ⟨1, 20⟩, ⟨22, 20⟩], by decide +kernel, by decide +kernel⟩
  have hcons : Consistent linkedInput linkedDeployed := by decide +kernel
  have haux : AuxdataOf linkedInput linkedCompiled := by
    intro e he
    rw [mem_singleton.mp he]
    show window linkedCompiled (⟨0, "0x07"⟩ : AuxdataValue).region = _
    rw [hregion, hexpected]
    decide +kernel
  obtain ⟨-, hmatch, hdeclares, hresult⟩ := transformed_code_exact hacc hcons
  have hdeclared : linkedInput.declared = [⟨0, 1⟩, ⟨1, 20⟩, ⟨22, 20⟩] := by
    have hrefs : linkedInput.libraries.flatMap Prod.snd = [⟨1, 20⟩, ⟨22, 20⟩] := by
      decide +kernel
    unfold CodeTransformationInput.declared
    rw [hrefs]
    show [(⟨0, "0x07"⟩ : AuxdataValue).region] ++ _ ++ _ = _
    rw [hregion]
    rfl
  have hagree : AgreeOutside linkedInput.declared linkedDeployed linkedCompiled := by
    rw [hdeclared]
    decide +kernel
  obtain ⟨details, hdetails⟩ := hmatch.mpr ⟨by decide +kernel, (hdeclares haux).mpr hagree⟩
  obtain ⟨hreplay, hfull⟩ := hresult details hdetails
  refine ⟨details, hdetails, hreplay (identifiersAgree_of_plain (by decide +kernel) hcons), ?_⟩
  cases htype : details.matchType with
  | partialMatch => rfl
  | fullMatch =>
    have hsame := (hfull.mp htype).2 _ (mem_singleton.mpr rfl)
    exact absurd hsame (by decide +kernel)

/-- Auxdata that is not the compiled code's. -/
def strayInput : CodeTransformationInput Unit where
  auxdata := ⟨[("1", ⟨0, "0x05"⟩)], by decide⟩
  linkReferences := .empty
  immutableReferences := .empty
  abi := ()
  creation := false

/-- Two libraries with the identifier `a:b:c`. -/
def collidingInput : CodeTransformationInput Unit where
  auxdata := .empty
  linkReferences := ⟨[("a", ⟨[("b:c", [⟨0, 20⟩])], by decide⟩),
    ("a:b", ⟨[("c", [⟨20, 20⟩])], by decide⟩)], by decide⟩
  immutableReferences := .empty
  abi := ()
  creation := false

/-- The replay of a match. -/
def replayedMatch (deployed compiled : List Byte) (input : CodeTransformationInput Unit) :
    Option (List Byte) :=
  match matchTransformedCode deployed compiled input with
  | .ok (some details) => details.replay compiled
  | _ => none

/-- Code that differs in its auxdata only is a mismatch when the declared auxdata is the
    deployed one; and of two libraries with one identifier the first gets the value of
    the second in a replay. -/
theorem transformed_code_inexact :
    (strayInput.Accepted 2 ∧ Consistent strayInput [5, 2] ∧ Shape strayInput [5, 2] [1, 2]
      ∧ AgreeOutside [⟨0, 1⟩] [5, 2] ([1, 2] : List Byte)
      ∧ ¬ ∃ details, matchTransformedCode [5, 2] [1, 2] strayInput = .ok (some details))
    ∧ (collidingInput.Accepted 40 ∧ Consistent collidingInput (replicate 20 1 ++ replicate 20 2)
      ∧ replayedMatch (replicate 20 1 ++ replicate 20 2) (replicate 40 0)
        collidingInput = some (replicate 40 2)) := by
  refine ⟨⟨⟨[⟨0, 1⟩], by decide +kernel, by decide +kernel⟩,
      by decide +kernel, by decide +kernel, by decide +kernel, ?_⟩,
    ⟨[⟨0, 20⟩, ⟨20, 20⟩], by decide +kernel, by decide +kernel⟩,
    by decide +kernel, by decide +kernel⟩
  rintro ⟨details, h⟩
  have hnone : (matchTransformedCode [5, 2] [1, 2] strayInput).map Option.isSome = .ok false := by
    decide +kernel
  rw [h] at hnone
  cases hnone

end Verify
