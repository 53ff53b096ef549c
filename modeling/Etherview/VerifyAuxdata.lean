import Etherview.VerifyReplay
import Etherview.VerifyFooter
import Etherview.Texts

/-! # Locating the metadata of a code

    `LocateAuxdata` of `internal/verify/engine_v2.go` compares two compilations of one
    source that differ in their metadata only.  Every position of the code may end a
    footer; the candidates are the footers both codes have at the same place and that
    contain a difference.  They are sorted by start, the widest first, and swept: a
    candidate inside the last selected one is dropped, one that overlaps it is an error.
    At the end every difference must lie in a selected range.

    What the sweep selects lies one behind the other (`selectLocated_ok`).  So the result
    is an input the transformation matcher accepts, on which the modified code is a
    partial match of the original, and the original a full match of itself. -/

namespace Verify

open Hex Patch Transact List

/-! ## The search -/

/-- Auxdata that was located, from its start to its end. -/
structure Located where
  start : Nat
  stop : Nat
deriving DecidableEq, Repr

/-- The region of located auxdata. -/
def Located.region (l : Located) : Region := ⟨l.start, l.stop - l.start⟩

/-- By start, the widest first. -/
def locatedLE (left right : Located) : Prop :=
  if left.start = right.start then right.stop ≤ left.stop else left.start ≤ right.start

instance : DecidableRel locatedLE := fun left right => by
  unfold locatedLE
  infer_instance

/-- The positions at which two codes differ. -/
def differences (original modified : List Byte) : List Bool :=
  List.zipWith (fun a b => decide (a ≠ b)) original modified

/-- The candidate that ends at a position. -/
def locatedEndingAt (mode : CborMode) (original modified : List Byte) (language : Language)
    (stop : Nat) : Option Located :=
  match auxdataRangeEndingAt mode original stop language,
    auxdataRangeEndingAt mode modified stop language with
  | some first, some second =>
    if first ≠ second then none
    else if (window (differences original modified) (Located.region ⟨first, stop⟩)).any id then
      some ⟨first, stop⟩
    else none
  | _, _ => none

/-- The sweep over the sorted candidates. -/
def selectLocated (selected : List Located) : List Located → Except String (List Located)
  | [] => .ok selected
  | candidate :: rest =>
    match selected.getLast? with
    | some last =>
      if candidate.start < last.stop then
        if candidate.stop ≤ last.stop then selectLocated selected rest
        else .error "dual compilation produced overlapping auxdata"
      else selectLocated (selected ++ [candidate]) rest
    | none => selectLocated [candidate] rest

/-- Every difference lies in a selected range. -/
def checkCovered (different : List Bool) (selected : List Located) : Except String Unit :=
  checkAll (fun entry =>
    failIf (entry.1 = true ∧ ¬ ∃ l ∈ selected, l.start ≤ entry.2 ∧ entry.2 < l.stop)
      "dual compilation changed non-auxdata bytecode") different.zipIdx

/-- The auxdata of a range: the bytes of the original code. -/
def Located.auxdata (original : List Byte) (l : Located) : AuxdataValue :=
  ⟨l.start, Hex.text (window original l.region)⟩

/-- The entries of the result: the ranges are numbered from one on. -/
def numbered (original : List Byte) (selected : List Located) : List (String × AuxdataValue) :=
  selected.zipIdx.map fun entry => (toString (entry.2 + 1), entry.1.auxdata original)

/-- `LocateAuxdata`: the auxdata in which two compilations differ. -/
def locateAuxdata (mode : CborMode) (original modified : List Byte) (language : Language) :
    Except String (GoMap String AuxdataValue) :=
  if original.length ≠ modified.length then .error "dual compilation changed bytecode length"
  else if original.length > maxMatcherBytecodeBytes then
    .error "compiled bytecode exceeds matcher limit"
  else if (differences original modified).any id = false then .ok .empty
  else do
    let candidates := (List.range' 3 (original.length - 2)).filterMap
      (locatedEndingAt mode original modified language)
    let selected ← selectLocated [] (candidates.insertionSort locatedLE)
    checkCovered (differences original modified) selected
    return GoMap.empty.insertAll (numbered original selected)

/-! ## The selected ranges -/

section Search

variable {mode : CborMode} {original modified : List Byte} {language : Language}

/-- Codes of one length differ inside only. -/
theorem lt_of_differs (hlen : original.length = modified.length) {i : Nat}
    (h : original[i]? ≠ modified[i]?) : i < original.length := by
  by_contra hi
  rw [getElem?_eq_none (not_lt.mp hi), getElem?_eq_none (hlen ▸ not_lt.mp hi)] at h
  exact h rfl

/-- A difference is an index at which the codes differ. -/
theorem getElem?_differences (hlen : original.length = modified.length) {i : Nat} :
    (differences original modified)[i]? = some true ↔
      i < original.length ∧ original[i]? ≠ modified[i]? := by
  unfold differences
  rw [getElem?_zipWith]
  by_cases hi : i < original.length
  · have hi' : i < modified.length := hlen ▸ hi
    rw [getElem?_eq_getElem hi, getElem?_eq_getElem hi']
    simp [hi]
  · rw [getElem?_eq_none (not_lt.mp hi)]
    simp [hi]

/-- What a candidate is: a footer of both codes that contains a difference. -/
structure Located.Candidate (mode : CborMode) (original modified : List Byte)
    (language : Language) (l : Located) : Prop where
  long : l.start + 2 < l.stop
  inside : l.stop ≤ original.length
  original_footer : auxdataRangeEndingAt mode original l.stop language = some l.start
  modified_footer : auxdataRangeEndingAt mode modified l.stop language = some l.start
  differs : ∃ i, l.start ≤ i ∧ i < l.stop ∧ original[i]? ≠ modified[i]?

theorem language_of_footer {code : List Byte} {stop start : Nat}
    (h : auxdataRangeEndingAt mode code stop language = some start) :
    language = .solidity ∨ language = .yul := by
  cases language with
  | solidity => exact .inl rfl
  | yul => exact .inr rfl
  | geas | vyper =>
    unfold auxdataRangeEndingAt at h
    split_ifs at h

/-- What the search finds is a candidate. -/
theorem candidate_of_mem (hlen : original.length = modified.length) {l : Located}
    (h : l ∈ (List.range' 3 (original.length - 2)).filterMap
      (locatedEndingAt mode original modified language)) :
    l.Candidate mode original modified language := by
  obtain ⟨stop, hstop, hl⟩ := mem_filterMap.mp h
  have hinside : stop ≤ original.length := by
    obtain ⟨hfrom, hto⟩ := mem_range'_1.mp hstop
    omega
  unfold locatedEndingAt at hl
  cases hfirst : auxdataRangeEndingAt mode original stop language with
  | none =>
    rw [hfirst] at hl
    cases hl
  | some first =>
    cases hsecond : auxdataRangeEndingAt mode modified stop language with
    | none =>
      rw [hfirst, hsecond] at hl
      cases hl
    | some second =>
      rw [hfirst, hsecond] at hl
      simp only at hl
      split_ifs at hl with hne hany
      cases hl
      obtain rfl := not_not.mp hne
      obtain ⟨members, hfooter, -⟩ :=
        (auxdataRangeEndingAt_eq_some (language_of_footer hfirst)).mp hfirst
      refine ⟨hfooter.long, hinside, hfirst, hsecond, ?_⟩
      obtain ⟨d, hd, htrue⟩ := any_eq_true.mp hany
      obtain ⟨k, hk⟩ := getElem?_of_mem hd
      rw [getElem?_window] at hk
      split_ifs at hk with hlt
      rw [show d = true from htrue] at hk
      obtain ⟨-, hdiff⟩ := (getElem?_differences hlen).mp hk
      have hlt : k < stop - first := hlt
      exact ⟨first + k, Nat.le_add_right _ _, show first + k < stop by omega, hdiff⟩

/-- **The sweep** selects candidates that lie one behind the other. -/
theorem selectLocated_ok {candidates selected result : List Located}
    (h : selectLocated selected candidates = .ok result)
    (hlong : ∀ l ∈ candidates, l.start ≤ l.stop)
    (hlong' : ∀ l ∈ selected, l.start ≤ l.stop)
    (hbehind : selected.Pairwise fun l m => l.stop ≤ m.start) :
    result.Pairwise (fun l m => l.stop ≤ m.start) ∧ ∀ l ∈ result, l ∈ selected
      ∨ l ∈ candidates := by
  induction candidates generalizing selected with
  | nil =>
    cases h
    exact ⟨hbehind, fun l hl => .inl hl⟩
  | cons candidate rest ih =>
    have hrest : ∀ l ∈ rest, l.start ≤ l.stop := fun l hl => hlong l (mem_cons_of_mem _ hl)
    have hcandidate := hlong candidate mem_cons_self
    rw [selectLocated] at h
    cases hlast : selected.getLast? with
    | none =>
      obtain rfl := getLast?_eq_none_iff.mp hlast
      obtain ⟨hpair, hmem⟩ :=
        ih h hrest (fun l hl => by rw [mem_singleton.mp hl]; exact hcandidate)
        (pairwise_singleton _ _)
      refine ⟨hpair, fun l hl => ?_⟩
      rcases hmem l hl with hl | hl
      · exact .inr (mem_cons.mpr (.inl (mem_singleton.mp hl)))
      · exact .inr (mem_cons_of_mem _ hl)
    | some last =>
      rw [hlast] at h
      simp only at h
      split_ifs at h with hinner hover
      · -- inside the last selected range: dropped
        obtain ⟨hpair, hmem⟩ := ih h hrest hlong' hbehind
        exact ⟨hpair, fun l hl => (hmem l hl).imp_right (mem_cons_of_mem _)⟩
      · -- behind the last selected range: selected
        obtain ⟨init, rfl⟩ := getLast?_eq_some_iff.mp hlast
        have hnew : ∀ l ∈ init ++ [last], l.stop ≤ candidate.start := by
          intro l hl
          have hstop : l.stop ≤ last.stop := by
            rcases mem_append.mp hl with hl | hl
            · have := (pairwise_append.mp hbehind).2.2 l hl last (mem_singleton.mpr rfl)
              have := hlong' last (mem_append_right _ (mem_singleton.mpr rfl))
              omega
            · rw [mem_singleton.mp hl]
          omega
        obtain ⟨hpair, hmem⟩ := ih h hrest (forall_mem_append.mpr ⟨hlong', fun l hl => by
            rw [mem_singleton.mp hl]; exact hcandidate⟩)
          (pairwise_append.mpr ⟨hbehind, pairwise_singleton _ _, fun l hl m hm => by
            rw [mem_singleton.mp hm]; exact hnew l hl⟩)
        refine ⟨hpair, fun l hl => ?_⟩
        rcases hmem l hl with hl | hl
        · rcases mem_append.mp hl with hl | hl
          · exact .inl hl
          · exact .inr (mem_cons.mpr (.inl (mem_singleton.mp hl)))
        · exact .inr (mem_cons_of_mem _ hl)

/-- The numbers of the located auxdata are distinct. -/
theorem nodup_numbered (original : List Byte) (selected : List Located) :
    ((numbered original selected).map Prod.fst).Nodup := by
  have hkeys : (numbered original selected).map Prod.fst
      = (List.range' 0 selected.length).map fun i => toString (i + 1) := by
    rw [numbered, map_map, ← zipIdx_map_snd 0 selected, map_map]
    rfl
  rw [hkeys]
  refine List.Nodup.map_on ?_ nodup_range'
  intro i _ j _ hij
  have := Nat.repr_injective hij
  omega

/-- What a successful search returns: candidates one behind the other that contain every
    difference. -/
structure LocatedAll (mode : CborMode) (original modified : List Byte) (language : Language)
    (located : List Located) : Prop where
  behind : located.Pairwise fun l m => l.stop ≤ m.start
  candidate : ∀ l ∈ located, l.Candidate mode original modified language
  covers : ∀ i, original[i]? ≠ modified[i]? → ∃ l ∈ located, l.start ≤ i ∧ i < l.stop

/-- **What a successful search returns.** -/
theorem locateAuxdata_ok {auxdata : GoMap String AuxdataValue}
    (h : locateAuxdata mode original modified language = .ok auxdata) :
    original.length = modified.length ∧ original.length ≤ maxMatcherBytecodeBytes
      ∧ ∃ located, auxdata.entries = numbered original located
        ∧ LocatedAll mode original modified language located := by
  unfold locateAuxdata at h
  split_ifs at h with hlen hlimit hany
  · -- no difference
    have hlen := not_not.mp hlen
    refine ⟨hlen, not_lt.mp hlimit, [], ?_, List.Pairwise.nil, nofun, ?_⟩
    · cases h
      rfl
    · intro i hdiff
      have htrue := (getElem?_differences hlen).mpr ⟨lt_of_differs hlen hdiff, hdiff⟩
      exact absurd rfl (any_eq_false.mp hany true (mem_of_getElem? htrue))
  · have hlen := not_not.mp hlen
    obtain ⟨selected, hselect, h⟩ := bind_eq_ok.mp h
    obtain ⟨_, hcovered, h⟩ := bind_eq_ok.mp h
    have hcand : ∀ l ∈ ((List.range' 3 (original.length - 2)).filterMap
        (locatedEndingAt mode original modified language)).insertionSort locatedLE,
        l.Candidate mode original modified language := by
      intro l hl
      exact candidate_of_mem hlen ((mem_insertionSort _).mp hl)
    obtain ⟨hbehind, hmem⟩ := selectLocated_ok hselect
      (fun l hl => by have := (hcand l hl).long; omega) nofun List.Pairwise.nil
    refine ⟨hlen, not_lt.mp hlimit, selected, ?_, hbehind, ?_, ?_⟩
    · rw [← pure_eq_ok.mp h]
      exact GoMap.entries_insertAll (nodup_numbered original selected)
    · intro l hl
      exact hcand l ((hmem l hl).resolve_left (nofun))
    · -- the source checks every difference against the selected ranges
      intro i hdiff
      have htrue := (getElem?_differences hlen).mpr ⟨lt_of_differs hlen hdiff, hdiff⟩
      have hcheck := checkAll_eq_ok.mp hcovered (true, i) (mem_zipIdx_iff_getElem?.mpr htrue)
      rw [failIf_eq_ok, not_and, not_not] at hcheck
      exact hcheck rfl

/-- A code has no auxdata that differs from itself. -/
theorem locateAuxdata_self (hlimit : original.length ≤ maxMatcherBytecodeBytes) :
    locateAuxdata mode original original language = .ok .empty := by
  have hnone : (differences original original).any id = false := by
    refine any_eq_false.mpr (fun d hd htrue => ?_)
    obtain ⟨i, hi⟩ := getElem?_of_mem hd
    rw [show d = true from htrue] at hi
    exact ((getElem?_differences rfl).mp hi).2 rfl
  unfold locateAuxdata
  rw [if_neg (not_not.mpr rfl), if_neg (not_lt.mpr hlimit), if_pos hnone]

end Search

/-! ## Matching with located auxdata -/

/-- The input that declares auxdata and nothing else. -/
def auxdataOnly {A : Type} [Inhabited A] (auxdata : GoMap String AuxdataValue) :
    CodeTransformationInput A where
  auxdata := auxdata
  linkReferences := .empty
  immutableReferences := .empty
  abi := default
  creation := false

section Match

variable {A : Type} [Inhabited A] {mode : CborMode} {original modified : List Byte}
  {language : Language} {auxdata : GoMap String AuxdataValue} {located : List Located}

theorem Located.Candidate.region_stop {l : Located}
    (h : l.Candidate mode original modified language) : l.region.stop = l.stop := by
  have := h.long
  show l.start + (l.stop - l.start) = l.stop
  omega

/-- The auxdata of a candidate is read back as the bytes of its range. -/
theorem Located.Candidate.auxdata_value {l : Located}
    (h : l.Candidate mode original modified language)
    (hlimit : original.length ≤ maxMatcherBytecodeBytes) :
    decodeBytecode (l.auxdata original).value = .ok (window original l.region)
      ∧ (l.auxdata original).expected = window original l.region
      ∧ (l.auxdata original).region = l.region := by
  have hinside := h.inside
  have hlength : (window original l.region).length = l.region.length := by
    refine length_window ?_
    rw [h.region_stop]
    exact hinside
  have hshort : (window original l.region).length ≤ maxMatcherBytecodeBytes := by
    rw [hlength]
    show l.stop - l.start ≤ _
    omega
  have hdecode : decodeBytecode (l.auxdata original).value = .ok (window original l.region) :=
    decodeBytecode_text hshort
  have hexpected : (l.auxdata original).expected = window original l.region := by
    rw [AuxdataValue.expected, hdecode]
  refine ⟨hdecode, hexpected, ?_⟩
  rw [AuxdataValue.region, hexpected, hlength]
  rfl

theorem mem_numbered {e : String × AuxdataValue} (he : e ∈ numbered original located) :
    e.1 ≠ "" ∧ ∃ l ∈ located, e.2 = l.auxdata original := by
  obtain ⟨⟨l, i⟩, hl, rfl⟩ := mem_map.mp he
  have hmem := mem_of_getElem? (mem_zipIdx_iff_getElem?.mp hl)
  exact ⟨Nat.repr_ne_empty, l, hmem, rfl⟩

theorem map_snd_numbered (original : List Byte) (located : List Located) :
    (numbered original located).map Prod.snd = located.map (Located.auxdata original) := by
  conv_rhs => rw [← zipIdx_map_fst 0 located]
  rw [numbered, map_map, map_map]
  rfl

section

variable (hlimit : original.length ≤ maxMatcherBytecodeBytes)
  (hall : LocatedAll mode original modified language located)
include hlimit hall

theorem numbered_regions :
    (numbered original located).map (fun e => e.2.region) = located.map Located.region := by
  have hregion : ∀ l ∈ located, (l.auxdata original).region = l.region :=
    fun l hl => ((hall.candidate l hl).auxdata_value hlimit).2.2
  have hsnd := congrArg (List.map AuxdataValue.region) (map_snd_numbered original located)
  rw [map_map, map_map] at hsnd
  exact hsnd.trans (map_congr_left hregion)

/-- **Located auxdata is an input the matcher accepts.** -/
theorem auxdataOnly_accepted (hentries : auxdata.entries = numbered original located)
    (hcount : located.length ≤ maxMatcherRanges) :
    (auxdataOnly auxdata : CodeTransformationInput A).Accepted original.length := by
  have heach : ∀ e ∈ numbered original located, auxdataRanges e = .ok [e.2.region] := by
    intro e he
    obtain ⟨hid, l, hl, hvalue⟩ := mem_numbered he
    have hcandidate := hall.candidate l hl
    obtain ⟨hdecode, hexpected, hregion⟩ := hcandidate.auxdata_value hlimit
    -- a located range is not empty, as the source wants it
    have hne : window original l.region ≠ [] := by
      have hlength : (window original l.region).length = l.region.length :=
        length_window (hcandidate.region_stop ▸ hcandidate.inside)
      have hlong := hcandidate.long
      intro hnil
      rw [hnil] at hlength
      have : 0 = l.stop - l.start := hlength
      omega
    obtain ⟨id, value⟩ := e
    subst hvalue
    rw [auxdataRanges, hdecode]
    show (failIf _ _ >>= fun _ => _) = _
    rw [failIf, if_neg (not_or.mpr ⟨hid, hne⟩), AuxdataValue.region, hexpected]
    rfl
  have hcollect : collect auxdataRanges auxdata.entries = .ok (located.map Located.region) := by
    rw [hentries, collect_singletons heach, numbered_regions hlimit hall]
  refine ⟨located.map Located.region ++ [] ++ [], ?_, ?_⟩
  · show (collect auxdataRanges auxdata.entries >>= fun _ => _) = _
    rw [hcollect]
    rfl
  · rw [append_nil, append_nil, validateRanges_eq_ok, length_map]
    refine ⟨hcount, ?_, ?_⟩
    · intro r hr
      obtain ⟨l, hl, rfl⟩ := mem_map.mp hr
      have hlong := (hall.candidate l hl).long
      rw [(hall.candidate l hl).region_stop]
      exact ⟨show 0 < l.stop - l.start by omega, (hall.candidate l hl).inside⟩
    · rw [pairwise_map]
      refine hall.behind.imp_of_mem (fun hl _ hle => .inl ?_)
      rw [(hall.candidate _ hl).region_stop]
      exact hle

end

/-- Auxdata has nothing that could be inconsistent. -/
theorem auxdataOnly_consistent (auxdata : GoMap String AuxdataValue) (deployed : List Byte) :
    Consistent (auxdataOnly auxdata : CodeTransformationInput A) deployed := nofun

section

variable (hlimit : original.length ≤ maxMatcherBytecodeBytes)
  (hall : LocatedAll mode original modified language located)
  (hentries : auxdata.entries = numbered original located)
include hlimit hall hentries

/-- The located auxdata is that of the original code. -/
theorem auxdataOnly_auxdataOf :
    AuxdataOf (auxdataOnly auxdata : CodeTransformationInput A) original := by
  intro e he
  obtain ⟨-, l, hl, hvalue⟩ :=
    mem_numbered (show e ∈ numbered original located from hentries ▸ he)
  obtain ⟨-, hexpected, hregion⟩ := (hall.candidate l hl).auxdata_value hlimit
  rw [hvalue, hexpected, hregion]

/-- A code that agrees with the original outside the located ranges matches it. -/
theorem auxdataOnly_match [AbiLibrary A] {deployed : List Byte}
    (hcount : located.length ≤ maxMatcherRanges) (hlen : deployed.length = original.length)
    (hagree : AgreeOutside (located.map Located.region) deployed original) :
    ∃ details, matchTransformedCode deployed original (auxdataOnly auxdata :
        CodeTransformationInput A) = .ok (some details)
      ∧ (details.matchType = .fullMatch ↔ located ≠ []
        ∧ ∀ l ∈ located, window deployed l.region = window original l.region) := by
  have hacc := auxdataOnly_accepted (A := A) hlimit hall hentries hcount
  have hcons := auxdataOnly_consistent (A := A) auxdata deployed
  have haux := auxdataOnly_auxdataOf (A := A) hlimit hall hentries
  have hdeclared : AgreeOutside (auxdataOnly auxdata : CodeTransformationInput A).declared
      deployed original := by
    intro i hi hc
    refine hagree i hi ?_
    rintro ⟨r, hr, hri⟩
    rw [← numbered_regions hlimit hall, ← hentries] at hr
    obtain ⟨e, he, rfl⟩ := List.mem_map.mp hr
    refine hc ⟨e.2.region, List.mem_append_left _ (List.mem_append_left _ ?_), hri⟩
    exact List.mem_map.mpr ⟨e, (GoMap.mem_sortedEntries _ _).mpr he, rfl⟩
  -- there are no libraries and no immutables, so only the auxdata decides
  obtain ⟨details, hdetails⟩ := (match_exists_iff hacc hcons).mpr
    ⟨(shape_of_runtime rfl).mpr hlen, (agreeOutside_declared haux).mpr hdeclared⟩
  refine ⟨details, hdetails, (match_details hacc hcons hdetails).2.trans (and_congr ?_ ?_)⟩
  · show auxdata.entries ≠ [] ↔ _
    rw [hentries, ← not_iff_not, not_not, not_not, numbered, List.map_eq_nil_iff,
      List.zipIdx_eq_nil_iff]
  · constructor
    · intro hsame l hl
      have hvalue : l.auxdata original ∈ (numbered original located).map Prod.snd := by
        rw [map_snd_numbered]
        exact List.mem_map.mpr ⟨l, hl, rfl⟩
      obtain ⟨e, he, hel⟩ := List.mem_map.mp hvalue
      have hwindow := hsame e (show e ∈ auxdata.entries from hentries ▸ he)
      obtain ⟨-, hexpected, hregion⟩ := (hall.candidate l hl).auxdata_value hlimit
      rw [hel, hexpected, hregion] at hwindow
      exact hwindow
    · intro hsame e he
      obtain ⟨-, l, hl, hel⟩ :=
        mem_numbered (show e ∈ numbered original located from hentries ▸ he)
      obtain ⟨-, hexpected, hregion⟩ := (hall.candidate l hl).auxdata_value hlimit
      rw [hel, hexpected, hregion]
      exact hsame l hl

end

/-- **Located auxdata.** Between a code and itself the search finds nothing.  The ranges
    of a successful search are numbered by increasing offset, lie one behind the other, are
    footers of both codes at the same place, each with a difference, and contain every
    difference.  As far as the matcher takes so many ranges, the modified code is a partial
    match of the original, and the original, when there are ranges, a full match of
    itself. -/
theorem located_auxdata_sound [AbiLibrary A] :
    (original.length ≤ maxMatcherBytecodeBytes →
      locateAuxdata mode original original language = .ok .empty)
    ∧ ∀ auxdata, locateAuxdata mode original modified language = .ok auxdata →
      ∃ located : List Located, auxdata.entries = numbered original located
      ∧ located.Pairwise (fun l m => l.stop ≤ m.start)
      ∧ (∀ l ∈ located, (∃ members, IsFooter mode original l.start l.stop members)
        ∧ (∃ members, IsFooter mode modified l.start l.stop members)
        ∧ l.stop ≤ original.length
        ∧ ∃ i, l.start ≤ i ∧ i < l.stop ∧ original[i]? ≠ modified[i]?)
      ∧ (∀ i, original[i]? ≠ modified[i]? → ∃ l ∈ located, l.start ≤ i ∧ i < l.stop)
      ∧ (original = modified → located = [])
      ∧ (located.length ≤ maxMatcherRanges →
        (∃ details, matchTransformedCode modified original
            (auxdataOnly auxdata : CodeTransformationInput A) = .ok (some details)
          ∧ details.matchType = .partialMatch)
        ∧ (located ≠ [] → ∃ details, matchTransformedCode original original
            (auxdataOnly auxdata : CodeTransformationInput A) = .ok (some details)
          ∧ details.matchType = .fullMatch)) := by
  refine ⟨locateAuxdata_self, fun auxdata h => ?_⟩
  obtain ⟨hlen, hlimit, located, hentries, hall⟩ := locateAuxdata_ok h
  refine ⟨located, hentries, hall.behind, ?_, hall.covers, ?_, ?_⟩
  · intro l hl
    have hcandidate := hall.candidate l hl
    have hlanguage := language_of_footer hcandidate.original_footer
    obtain ⟨members, hfooter, -⟩ :=
      (auxdataRangeEndingAt_eq_some hlanguage).mp hcandidate.original_footer
    obtain ⟨members', hfooter', -⟩ :=
      (auxdataRangeEndingAt_eq_some hlanguage).mp hcandidate.modified_footer
    exact ⟨⟨members, hfooter⟩, ⟨members', hfooter'⟩, hcandidate.inside,
      hcandidate.differs⟩
  · rintro rfl
    refine eq_nil_iff_forall_not_mem.mpr (fun l hl => ?_)
    obtain ⟨i, -, -, hdiff⟩ := (hall.candidate l hl).differs
    exact hdiff rfl
  · intro hcount
    constructor
    · -- every difference lies in a located range
      have hagree : AgreeOutside (located.map Located.region) modified original := by
        intro i _ hc
        by_contra hdiff
        obtain ⟨l, hl, hfrom, hto⟩ := hall.covers i (fun heq => hdiff heq.symm)
        refine hc ⟨l.region, mem_map.mpr ⟨l, hl, rfl⟩, hfrom, ?_⟩
        rw [(hall.candidate l hl).region_stop]
        exact hto
      obtain ⟨details, hdetails, hfull⟩ :=
        auxdataOnly_match (A := A) hlimit hall hentries hcount hlen.symm hagree
      refine ⟨details, hdetails, ?_⟩
      cases htype : details.matchType with
      | partialMatch => rfl
      | fullMatch =>
        -- the first range contains a difference
        obtain ⟨hne, hsame⟩ := hfull.mp htype
        obtain ⟨l, rest, rfl⟩ := exists_cons_of_ne_nil hne
        have hcandidate := hall.candidate l mem_cons_self
        obtain ⟨i, hfrom, hto, hdiff⟩ := hcandidate.differs
        have hequal := window_eq_iff.mp (hsame l mem_cons_self) i
          ⟨hfrom, hcandidate.region_stop ▸ hto⟩
        exact absurd hequal.symm hdiff
    · intro hne
      obtain ⟨details, hdetails, hfull⟩ :=
        auxdataOnly_match (A := A) hlimit hall hentries hcount
        rfl (fun i _ _ => rfl)
      exact ⟨details, hdetails, hfull.mpr ⟨hne, fun _ _ => rfl⟩⟩

end Match

/-- `versionedCode` with the next version. -/
def nextVersionedCode : List Byte := bytesOf [0, 161, 100, 115, 111, 108, 99, 67, 8, 21, 30, 0, 10]

/-- The metadata of two versions is located, and found again in both of them. -/
theorem located_auxdata_version :
    ∃ auxdata, locateAuxdata metadataMode versionedCode nextVersionedCode .solidity = .ok auxdata
      ∧ auxdata.entries = [("1", ⟨1, "0xa164736f6c634308151d000a"⟩)]
      ∧ (∃ details, matchTransformedCode nextVersionedCode versionedCode
          (auxdataOnly auxdata : CodeTransformationInput Unit) = .ok (some details)
        ∧ details.matchType = .partialMatch)
      ∧ ∃ details, matchTransformedCode versionedCode versionedCode
          (auxdataOnly auxdata : CodeTransformationInput Unit) = .ok (some details)
        ∧ details.matchType = .fullMatch := by
  have hfound : (locateAuxdata metadataMode versionedCode nextVersionedCode .solidity).map
      GoMap.entries = .ok [("1", ⟨1, "0xa164736f6c634308151d000a"⟩)] := by
    decide +kernel
  cases hlocate : locateAuxdata metadataMode versionedCode nextVersionedCode .solidity with
  | error e =>
    rw [hlocate] at hfound
    cases hfound
  | ok auxdata =>
    rw [hlocate] at hfound
    have hentries := Except.ok.inj hfound
    obtain ⟨located, hnumbered, -, -, -, -, hmatch⟩ :=
      (located_auxdata_sound (A := Unit)).2 auxdata hlocate
    have hone : located.length = 1 := by
      have hlength := congrArg List.length (hnumbered.symm.trans hentries)
      rwa [numbered, length_map, length_zipIdx] at hlength
    obtain ⟨hpartly, hfull⟩ := hmatch (by rw [hone]; decide)
    refine ⟨auxdata, rfl, hentries, hpartly, hfull ?_⟩
    rintro rfl
    cases hone

end Verify
