import Etherview.VerifyCandidates

/-! # What the verification of candidates returns

    * The comparator of the ranking is the strict order of a key: the rank from above,
      hinted before unhinted, the name (`candidateLess_iff`).  That is the order in
      which verifications should come: by how well they match, then by the hint, then
      by name (`before_of_candidateLess`).
    * With names of their own, the candidates' verifications that count come back in
      that order (`verifyCandidateArtifacts_ok`), so the order of the input does not
      matter (`ranking_canonical`).
    * A candidate that does not match leaves the others alone, unless comparing it is an
      error and comparing the others is not (`candidate_independent_iff`). -/

namespace Verify

open Hex Patch Transact List Except

variable {A : Type}

/-! ## The order of the ranking -/

/-- What candidates are sorted by. -/
def rankKey (candidate : RankedCandidate) : ℕ ×ₗ (Bool ×ₗ String) :=
  toLex (4 - candidateRank candidate, toLex (!candidate.hint, candidate.fullyQualifiedName))

theorem candidateRank_le (candidate : RankedCandidate) : candidateRank candidate ≤ 4 := by
  unfold candidateRank
  split <;> omega

variable {left right : RankedCandidate}

/-- The order of the sort is that of the keys. -/
theorem candidateLess_iff : candidateLess left right ↔ rankKey left < rankKey right := by
  have hleft := candidateRank_le left
  have hright := candidateRank_le right
  unfold candidateLess rankKey
  rw [Prod.Lex.toLex_lt_toLex, Prod.Lex.toLex_lt_toLex]
  by_cases hrank : candidateRank left = candidateRank right
  · rw [if_neg (not_not.mpr hrank), hrank]
    by_cases hhint : left.hint = right.hint
    · rw [if_neg (not_not.mpr hhint), hhint]
      simp
    · rw [if_pos hhint]
      cases hl : left.hint <;> cases hr : right.hint <;> simp_all
  · rw [if_pos hrank]
    simp only [gt_iff_lt]
    omega

theorem rankKey_name (h : rankKey left = rankKey right) :
    left.fullyQualifiedName = right.fullyQualifiedName := by
  unfold rankKey at h
  simp only [toLex_inj, Prod.mk.injEq] at h
  exact h.2.2

/-! ## The order of the verifications -/

/-- The details of a full match. -/
def FullMatch (details : Option VerificationMatchDetails) : Prop :=
  ∃ d, details = some d ∧ d.matchType = .fullMatch

theorem isFull_iff {details : Option VerificationMatchDetails} :
    isFull details = true ↔ FullMatch details := by
  cases details with
  | none => exact ⟨fun h => (by cases h), fun ⟨_, h, _⟩ => (by cases h)⟩
  | some d =>
    exact ⟨fun h => ⟨d, rfl, of_decide_eq_true h⟩, fun ⟨e, he, h⟩ => by
      cases he
      exact decide_eq_true h⟩

instance (details : Option VerificationMatchDetails) : Decidable (FullMatch details) :=
  decidable_of_iff _ isFull_iff

/-- How well a candidate matches: both codes in full, the creation code in full, the
    runtime code in full, or neither. -/
def CandidateVerification.tier (r : CandidateVerification A) : Nat :=
  if FullMatch r.creation ∧ FullMatch r.runtime then 0
  else if FullMatch r.creation then 1
  else if FullMatch r.runtime then 2
  else 3

/-- The hint names the contract, alone or with its file. -/
def CandidateVerification.Hinted (hint : String) (r : CandidateVerification A) : Prop :=
  hint ≠ "" ∧ (hint = r.candidate.contractName
    ∨ hint = r.candidate.fileName ++ ":" ++ r.candidate.contractName)

/-- The order in which verifications should come: a better match first, then hinted
    before unhinted, then by the name with the file. -/
def CandidateVerification.Before (hint : String) (r s : CandidateVerification A) : Prop :=
  r.tier < s.tier ∨ r.tier = s.tier ∧ (r.Hinted hint ∧ ¬ s.Hinted hint
    ∨ (r.Hinted hint ↔ s.Hinted hint)
      ∧ r.candidate.fileName ++ ":" ++ r.candidate.contractName
      < s.candidate.fileName ++ ":" ++ s.candidate.contractName)

section Rank

variable {hint : String}

/-- The rank counts from above what the tier counts from below. -/
theorem candidateRank_ranked (hint : String) (r : CandidateVerification A) :
    candidateRank (r.ranked hint) + r.tier = 4 := by
  unfold candidateRank CandidateVerification.tier CandidateVerification.ranked
  by_cases hcreation : FullMatch r.creation <;> by_cases hruntime : FullMatch r.runtime <;>
    simp [hcreation, hruntime, isFull_iff.mpr, Bool.eq_false_iff.mpr, isFull_iff]

theorem ranked_hint_iff {r : CandidateVerification A} :
    (r.ranked hint).hint = true ↔ r.Hinted hint := decide_eq_true_iff

/-- **The comparator puts verifications in their order.** -/
theorem before_of_candidateLess {r s : CandidateVerification A}
    (h : candidateLess (r.ranked hint) (s.ranked hint)) : r.Before hint s := by
  have hr := candidateRank_ranked hint r
  have hs := candidateRank_ranked hint s
  unfold candidateLess at h
  split at h
  · exact .inl (by omega)
  · refine .inr ⟨by omega, ?_⟩
    split at h
    · case isTrue hdiffer =>
      refine .inl ⟨ranked_hint_iff.mp h, fun hs => hdiffer ?_⟩
      rw [h, ranked_hint_iff.mpr hs]
    · case isFalse hsame =>
      refine .inr ⟨?_, h⟩
      rw [← ranked_hint_iff, ← ranked_hint_iff, not_not.mp hsame]

/-- The order the verifications come back in. -/
def CandidateVerification.LE (hint : String) (r s : CandidateVerification A) : Prop :=
  ¬ candidateLess (s.ranked hint) (r.ranked hint)

instance : DecidableRel (CandidateVerification.LE (A := A) hint) :=
  fun r s => inferInstanceAs (Decidable (¬ candidateLess (s.ranked hint) (r.ranked hint)))

/-- The order of the results is that of the keys. -/
theorem CandidateVerification.le_iff {r s : CandidateVerification A} :
    r.LE hint s ↔ rankKey (r.ranked hint) ≤ rankKey (s.ranked hint) := by
  unfold CandidateVerification.LE
  rw [candidateLess_iff, not_lt]

instance : Std.Total (CandidateVerification.LE (A := A) hint) where
  total r s := by
    rw [CandidateVerification.le_iff, CandidateVerification.le_iff]
    exact le_total _ _

instance : IsTrans (CandidateVerification A) (CandidateVerification.LE hint) where
  trans r s t := by
    rw [CandidateVerification.le_iff, CandidateVerification.le_iff, CandidateVerification.le_iff]
    exact le_trans

/-- Verifications with names of their own are sorted strictly, in one way. -/
theorem sorted_strict {results : List (CandidateVerification A)}
    (hnames : (results.map fun r => r.candidate.fullyQualifiedName).Nodup) :
    (results.insertionSort (CandidateVerification.LE hint)).Pairwise
      fun r s => candidateLess (r.ranked hint) (s.ranked hint) := by
  have hperm := perm_insertionSort (CandidateVerification.LE hint) results
  have hdistinct := ((hperm.map fun r => r.candidate.fullyQualifiedName).nodup_iff).mpr hnames
  have hsorted := pairwise_insertionSort (CandidateVerification.LE hint) results
  refine (hsorted.and (pairwise_map.mp hdistinct)).imp ?_
  rintro r s ⟨hle, hne⟩
  rw [candidateLess_iff]
  refine lt_of_le_of_ne (CandidateVerification.le_iff.mp hle) ?_
  intro hkey
  exact hne (rankKey_name hkey)

/-- Sorting does not depend on the order of the candidates. -/
theorem sorted_perm {results results' : List (CandidateVerification A)}
    (hperm : results.Perm results')
    (hnames : (results'.map fun r => r.candidate.fullyQualifiedName).Nodup) :
    results.insertionSort (CandidateVerification.LE hint)
      = results'.insertionSort (CandidateVerification.LE hint) := by
  have hnames' := ((hperm.map fun r => r.candidate.fullyQualifiedName).nodup_iff).mpr hnames
  have hsame := ((perm_insertionSort (CandidateVerification.LE hint) results).trans hperm).trans
    (perm_insertionSort (CandidateVerification.LE hint) results').symm
  refine hsame.eq_of_pairwise ?_ (sorted_strict hnames') (sorted_strict hnames)
  intro r s _ _ hrs hsr
  rw [candidateLess_iff] at hrs hsr
  exact absurd hrs (lt_asymm hsr)

end Rank

/-! ## One candidate -/

section One

variable [Inhabited A] [AbiLibrary A] {onchain : OnchainCode} {candidate : CandidateArtifact A}
  {result : CandidateVerification A}

/-- A verification belongs to its candidate and holds the details of its comparisons. -/
theorem verifyCandidate_ok (h : verifyCandidate onchain candidate = .ok result) :
    result.candidate = candidate
      ∧ runComparison (onchain.creationComparison candidate) = .ok result.creation
      ∧ runComparison (onchain.runtimeComparison candidate) = .ok result.runtime := by
  obtain ⟨creation, hcreation, h⟩ := bind_eq_ok.mp h
  obtain ⟨runtime, hruntime, h⟩ := bind_eq_ok.mp h
  rw [← pure_eq_ok.mp h]
  exact ⟨rfl, hcreation, hruntime⟩

/-- A comparison that is an error: the lengths fit, and the ranges are malformed or a
    library or immutable carries two values. -/
def Comparison.Faulty (comparison : Comparison A) : Prop :=
  LengthFits comparison.input comparison.deployed comparison.compiled
    ∧ ¬ (comparison.input.Accepted comparison.compiled.length
      ∧ Consistent comparison.input comparison.deployed)

/-- One of the comparisons of a candidate is an error. -/
def OnchainCode.Faulty (onchain : OnchainCode) (candidate : CandidateArtifact A) : Prop :=
  (∃ comparison ∈ onchain.creationComparison candidate, comparison.Faulty)
    ∨ ∃ comparison ∈ onchain.runtimeComparison candidate, comparison.Faulty

omit [Inhabited A] in
/-- A comparison fails iff it is faulty. -/
theorem runComparison_error_iff {comparison : Option (Comparison A)} :
    (∃ err, runComparison comparison = .error err) ↔ ∃ c ∈ comparison, c.Faulty := by
  cases comparison with
  | none => exact ⟨fun ⟨_, h⟩ => (by cases h), fun ⟨_, h, _⟩ => (by cases h)⟩
  | some c =>
    refine matchTransformedCode_error_iff.trans ?_
    exact ⟨fun h => ⟨c, rfl, h⟩, fun ⟨_, hc, h⟩ => Option.mem_some.mp hc ▸ h⟩

/-- A candidate fails iff it is faulty. -/
theorem verifyCandidate_error_iff :
    (∃ err, verifyCandidate onchain candidate = .error err) ↔ onchain.Faulty candidate := by
  unfold OnchainCode.Faulty
  rw [← runComparison_error_iff, ← runComparison_error_iff]
  constructor
  · rintro ⟨err, h⟩
    rcases bind_eq_error.mp h with h | ⟨creation, -, h⟩
    · exact .inl ⟨err, h⟩
    · rcases bind_eq_error.mp h with h | ⟨runtime, -, h⟩
      · exact .inr ⟨err, h⟩
      · cases h
  · intro h
    cases hcreation : runComparison (onchain.creationComparison candidate) with
    | error err => exact ⟨err, bind_eq_error.mpr (.inl hcreation)⟩
    | ok creation =>
      rcases h with ⟨err, herr⟩ | ⟨err, herr⟩
      · rw [hcreation] at herr
        cases herr
      · exact ⟨err,
          bind_eq_error.mpr (.inr ⟨creation, hcreation, bind_eq_error.mpr (.inl herr)⟩)⟩

/-- The candidate matches the creation code or the runtime code. -/
def OnchainCode.Matches (onchain : OnchainCode) (candidate : CandidateArtifact A) : Prop :=
  (∃ details, runComparison (onchain.creationComparison candidate) = .ok (some details))
    ∨ ∃ details, runComparison (onchain.runtimeComparison candidate) = .ok (some details)

/-- The result is one that is kept. -/
def CandidateVerification.Counts (requireRuntime : Bool) (result : CandidateVerification A) :
    Prop :=
  if requireRuntime then result.runtime.isSome
  else result.creation.isSome ∨ result.runtime.isSome

omit [Inhabited A] [AbiLibrary A] in
theorem candidateKept_iff {requireRuntime : Bool} {hint : String} :
    candidateKept requireRuntime (result.ranked hint) = true ↔ result.Counts requireRuntime := by
  unfold candidateKept CandidateVerification.Counts CandidateVerification.ranked
  cases requireRuntime <;> cases result.creation <;> cases result.runtime <;> simp

end One

/-! ## All candidates -/

section All

variable [Inhabited A] [AbiLibrary A] {onchain : OnchainCode} {hint : String}
  {candidates : List (CandidateArtifact A)}

/-- The verification of a candidate that is not faulty. -/
def OnchainCode.verified (onchain : OnchainCode) (candidate : CandidateArtifact A) :
    CandidateVerification A :=
  match verifyCandidate onchain candidate with
  | .ok result => result
  | .error _ => default

variable {candidate : CandidateArtifact A}

/-- A candidate that is not faulty has a result. -/
theorem OnchainCode.verified_ok (h : ¬ onchain.Faulty candidate) :
    verifyCandidate onchain candidate = .ok (onchain.verified candidate) := by
  unfold OnchainCode.verified
  cases hresult : verifyCandidate onchain candidate with
  | ok result => rfl
  | error err => exact absurd (verifyCandidate_error_iff.mp ⟨err, hresult⟩) h

theorem OnchainCode.verified_candidate
    (h : ¬ onchain.Faulty candidate) : (onchain.verified candidate).candidate = candidate :=
  (verifyCandidate_ok (onchain.verified_ok h)).1

/-- The loop over candidates without a faulty one. -/
theorem collect_run (h : ∀ c ∈ candidates, ¬ onchain.Faulty c) (collected : Collected A) :
    candidates.foldlM (collectCandidate onchain hint) collected
      = .ok ⟨collected.ranked ++ candidates.map (fun c => (onchain.verified c).ranked hint),
        collected.byName.insertAll
          (candidates.map fun c => (c.fullyQualifiedName, onchain.verified c))⟩ := by
  induction candidates generalizing collected with
  | nil =>
    rw [map_nil, append_nil]
    rfl
  | cons c rest ih =>
    rw [foldlM_cons, collectCandidate, onchain.verified_ok (h c mem_cons_self)]
    show rest.foldlM _ _ = _
    rw [ih (fun c hc => h c (mem_cons_of_mem _ hc)), append_assoc, singleton_append]
    rfl

/-- The loop over candidates with a faulty one. -/
theorem collect_fails (h : ∃ c ∈ candidates, onchain.Faulty c) (collected : Collected A) :
    ∃ err, candidates.foldlM (collectCandidate onchain hint) collected = .error err := by
  induction candidates generalizing collected with
  | nil =>
    obtain ⟨c, hc, -⟩ := h
    cases hc
  | cons c rest ih =>
    rw [foldlM_cons]
    by_cases hc : onchain.Faulty c
    · obtain ⟨err, herr⟩ := verifyCandidate_error_iff.mpr hc
      exact ⟨err, bind_eq_error.mpr (.inl (bind_eq_error.mpr (.inl herr)))⟩
    · have hrest : ∃ d ∈ rest, onchain.Faulty d := by
        obtain ⟨d, hd, hfaulty⟩ := h
        rcases mem_cons.mp hd with rfl | hd
        · exact absurd hfaulty hc
        · exact ⟨d, hd, hfaulty⟩
      rw [collectCandidate, onchain.verified_ok hc]
      exact ih hrest _

/-- The verifications that count, in order. -/
def ranking (hint : String) (requireRuntime : Bool) (results : List (CandidateVerification A)) :
    List (CandidateVerification A) :=
  (results.filter fun r => candidateKept requireRuntime (r.ranked hint)).insertionSort
    (CandidateVerification.LE hint)

omit [AbiLibrary A] in
/-- Reading a map by name in the order of the sorted list gives the sorted verifications. -/
theorem sortCandidates_lookup {requireRuntime : Bool} {results : List (CandidateVerification A)}
    {byName : GoMap String (CandidateVerification A)}
    (hentries : byName.entries = results.map fun r => (r.candidate.fullyQualifiedName, r)) :
    (sortCandidates (results.map (CandidateVerification.ranked hint)) requireRuntime).map
        (fun item => (byName.get? item.fullyQualifiedName).getD default)
      = ranking hint requireRuntime results := by
  have hlookup : ∀ r ∈ results,
      (byName.get? r.candidate.fullyQualifiedName).getD default = r := by
    intro r hr
    have hmem : (r.candidate.fullyQualifiedName, r) ∈ byName.entries := by
      rw [hentries]
      exact mem_map.mpr ⟨r, hr, rfl⟩
    rw [byName.get?_eq_some.mpr hmem]
    rfl
  have hsort := map_insertionSort (CandidateVerification.LE hint)
    (fun left right => ¬ candidateLess right left) (CandidateVerification.ranked (A := A) hint)
    (results.filter fun r => candidateKept requireRuntime (r.ranked hint))
    (fun r _ s _ => Iff.rfl)
  unfold sortCandidates ranking
  rw [Slices.filterInPlace_eq, filter_map]
  refine (congrArg (map _) hsort.symm).trans ?_
  rw [map_map]
  refine (map_congr_left (g := id) ?_).trans (map_id _)
  intro r hr
  exact hlookup r (mem_filter.mp ((mem_insertionSort _).mp hr)).1

variable {bytecodes : BytecodePair} {requireRuntime : Bool}

/-- **What the verification returns** for candidates with names of their own, none of
    them faulty. -/
theorem verifyCandidateArtifacts_ok
    (hnames : (candidates.map CandidateArtifact.fullyQualifiedName).Nodup)
    (hread : readOnchain bytecodes = .ok onchain) (h : ∀ c ∈ candidates, ¬ onchain.Faulty c) :
    verifyCandidateArtifacts candidates bytecodes hint requireRuntime
      = .ok (ranking hint requireRuntime (candidates.map onchain.verified)) := by
  unfold verifyCandidateArtifacts
  rw [hread]
  show (candidates.foldlM (collectCandidate onchain hint) ⟨[], .empty⟩ >>= fun collected => _)
    = _
  rw [collect_run h]
  show Except.ok _ = Except.ok _
  have hkeys : (candidates.map fun c => (c.fullyQualifiedName, onchain.verified c)).map Prod.fst
      = candidates.map CandidateArtifact.fullyQualifiedName := by
    rw [map_map]
    rfl
  have hentries := GoMap.entries_insertAll (m := GoMap.empty) (hkeys ▸ hnames)
  have hranked : candidates.map (fun c => (onchain.verified c).ranked hint)
      = (candidates.map onchain.verified).map (CandidateVerification.ranked hint) := by
    rw [map_map]
    rfl
  rw [nil_append, hranked]
  refine congrArg Except.ok (sortCandidates_lookup (hentries.trans ?_))
  rw [map_map]
  refine map_congr_left (fun c hc => ?_)
  show (c.fullyQualifiedName, _) = ((onchain.verified c).candidate.fullyQualifiedName, _)
  rw [onchain.verified_candidate (h c hc)]

/-- One faulty candidate fails the whole call. -/
theorem verifyCandidateArtifacts_error (hread : readOnchain bytecodes = .ok onchain)
    (h : ∃ c ∈ candidates, onchain.Faulty c) :
    ∃ err, verifyCandidateArtifacts candidates bytecodes hint requireRuntime = .error err := by
  obtain ⟨err, herr⟩ := collect_fails h ⟨[], .empty⟩
  refine ⟨err, ?_⟩
  unfold verifyCandidateArtifacts
  rw [hread]
  show (candidates.foldlM (collectCandidate onchain hint) ⟨[], .empty⟩ >>= fun collected => _)
    = _
  exact bind_eq_error.mpr (.inl herr)

/-- The results have the names of their candidates. -/
theorem names_verified (h : ∀ c ∈ candidates, ¬ onchain.Faulty c) :
    (candidates.map onchain.verified).map (fun r => r.candidate.fullyQualifiedName)
      = candidates.map CandidateArtifact.fullyQualifiedName := by
  rw [map_map]
  refine map_congr_left (fun c hc => ?_)
  show (onchain.verified c).candidate.fullyQualifiedName = _
  rw [onchain.verified_candidate (h c hc)]

/-- What matches nothing is not kept. -/
theorem not_counts_of_not_matches
    (hno : ¬ onchain.Matches candidate) (h : ¬ onchain.Faulty candidate) :
    ¬ (onchain.verified candidate).Counts requireRuntime := by
  obtain ⟨-, hcreation, hruntime⟩ := verifyCandidate_ok (onchain.verified_ok h)
  have hnocreation : (onchain.verified candidate).creation = none := by
    cases hc : (onchain.verified candidate).creation with
    | none => rfl
    | some details => exact absurd (.inl ⟨details, hc ▸ hcreation⟩) hno
  have hnoruntime : (onchain.verified candidate).runtime = none := by
    cases hr : (onchain.verified candidate).runtime with
    | none => rfl
    | some details => exact absurd (.inr ⟨details, hr ▸ hruntime⟩) hno
  unfold CandidateVerification.Counts
  rw [hnocreation, hnoruntime]
  cases requireRuntime <;> simp

omit [Inhabited A] [AbiLibrary A] in
/-- A verification that does not count leaves no trace in the ranking. -/
theorem ranking_append {f : CandidateArtifact A → CandidateVerification A}
    {before after : List (CandidateArtifact A)} {added : CandidateArtifact A}
    (h : ¬ (f added).Counts requireRuntime) :
    ranking hint requireRuntime ((before ++ added :: after).map f)
      = ranking hint requireRuntime ((before ++ after).map f) := by
  have hdropped : (f added :: after.map f).filter
      (fun r => candidateKept requireRuntime (r.ranked hint))
        = (after.map f).filter fun r => candidateKept requireRuntime (r.ranked hint) :=
    filter_cons_of_neg (fun hkept => h (candidateKept_iff.mp hkept))
  unfold ranking
  rw [map_append, map_cons, filter_append, hdropped, ← filter_append, ← map_append]

/-- Success, with the verifications of the candidates of other names. -/
def othersOf (name : String) (result : Except VerifyError (List (CandidateVerification A))) :
    Option (List (CandidateVerification A)) :=
  result.toOption.map fun results =>
    results.filter fun r => r.candidate.fullyQualifiedName ≠ name

/-- **When candidates are independent.** Adding a candidate that does not match leaves
    success and the other verifications as they are exactly when none of its comparisons
    is an error, or the verification fails without it. -/
theorem candidate_independent_iff {before after : List (CandidateArtifact A)}
    {added : CandidateArtifact A}
    (hnames : ((before ++ added :: after).map CandidateArtifact.fullyQualifiedName).Nodup)
    (hno : ∀ onchain, readOnchain bytecodes = .ok onchain → ¬ onchain.Matches added) :
    othersOf added.fullyQualifiedName
        (verifyCandidateArtifacts (before ++ added :: after) bytecodes hint requireRuntime)
      = othersOf added.fullyQualifiedName
        (verifyCandidateArtifacts (before ++ after) bytecodes hint requireRuntime)
    ↔ ∀ onchain, readOnchain bytecodes = .ok onchain →
      ¬ onchain.Faulty added ∨ ∃ c ∈ before ++ after, onchain.Faulty c := by
  have hothers : ((before ++ after).map CandidateArtifact.fullyQualifiedName).Nodup :=
    hnames.sublist (((sublist_cons_self added after).append_left before).map _)
  cases hread : readOnchain bytecodes with
  | error err =>
    refine ⟨fun _ onchain h => (by cases h), fun _ => ?_⟩
    unfold verifyCandidateArtifacts
    rw [hread]
    rfl
  | ok onchain =>
    rw [show (∀ o, Except.ok onchain = Except.ok o → _) ↔ _ from
      ⟨fun h => h onchain rfl, fun h o ho => Except.ok.inj ho ▸ h⟩]
    by_cases hbad : ∃ c ∈ before ++ after, onchain.Faulty c
    · -- the verification fails without the candidate, and with it
      refine ⟨fun _ => .inr hbad, fun _ => ?_⟩
      have hbad' : ∃ c ∈ before ++ added :: after, onchain.Faulty c := by
        obtain ⟨c, hc, hfaulty⟩ := hbad
        exact ⟨c, ((sublist_cons_self added after).append_left before).subset hc, hfaulty⟩
      obtain ⟨err, herr⟩ := verifyCandidateArtifacts_error hread hbad
      obtain ⟨err', herr'⟩ := verifyCandidateArtifacts_error hread hbad'
      rw [herr, herr']
      rfl
    · have hnone : ∀ c ∈ before ++ after, ¬ onchain.Faulty c :=
        fun c hc hfaulty => hbad ⟨c, hc, hfaulty⟩
      rw [verifyCandidateArtifacts_ok hothers hread hnone]
      by_cases hadded : onchain.Faulty added
      · -- its error is the error of all
        obtain ⟨err, herr⟩ := verifyCandidateArtifacts_error hread
          ⟨added, mem_append_right before mem_cons_self, hadded⟩
        rw [herr]
        exact ⟨fun h => (by cases h), fun h => absurd hadded (h.resolve_right hbad)⟩
      · -- it is verified and does not count
        refine ⟨fun _ => .inl hadded, fun _ => ?_⟩
        have hall : ∀ c ∈ before ++ added :: after, ¬ onchain.Faulty c := by
          intro c hc
          rcases mem_append.mp hc with hc | hc
          · exact hnone c (mem_append_left _ hc)
          · rcases mem_cons.mp hc with rfl | hc
            · exact hadded
            · exact hnone c (mem_append_right _ hc)
        rw [verifyCandidateArtifacts_ok hnames hread hall,
          ranking_append (not_counts_of_not_matches (hno onchain hread) hadded)]

end All

/-! ## A compilation of two contracts -/

/-- What the extractor of Solidity and Yul candidates guarantees of the data that is
    compared: code within the limit, references inside the code, zeros in the place of
    libraries, and auxdata located in two compilations. -/
structure CandidateArtifact.Extracted (mode : CborMode) (language : Language)
    (candidate : CandidateArtifact A) : Prop where
  creation_size : candidate.creationBytes ≠ []
    ∧ candidate.creationBytes.length ≤ maxMatcherBytecodeBytes
  runtime_size : candidate.runtimeBytes ≠ []
    ∧ candidate.runtimeBytes.length ≤ maxMatcherBytecodeBytes
  creation_links : validateLinkReferences candidate.creationLinks candidate.creationBytes.length
    = .ok ()
  runtime_links : validateLinkReferences candidate.runtimeLinks candidate.runtimeBytes.length
    = .ok ()
  runtime_immutables : validateImmutableReferences candidate.runtimeImmutables
    candidate.runtimeBytes = .ok ()
  creation_zeros : ∀ source ∈ candidate.creationLinks.entries, ∀ library ∈ source.2.entries,
    ∀ r ∈ library.2, window candidate.creationBytes r = List.replicate 20 (Fin.ofNat 256 0)
  runtime_zeros : ∀ source ∈ candidate.runtimeLinks.entries, ∀ library ∈ source.2.entries,
    ∀ r ∈ library.2, window candidate.runtimeBytes r = List.replicate 20 (Fin.ofNat 256 0)
  creation_auxdata : ∃ modified, locateAuxdata mode candidate.creationBytes modified language
    = .ok candidate.creationAuxdata
  runtime_auxdata : ∃ modified, locateAuxdata mode candidate.runtimeBytes modified language
    = .ok candidate.runtimeAuxdata

/-- A token whose runtime code is the bytes `1` and `2`. -/
def tokenCandidate : CandidateArtifact Unit where
  fileName := "Token.sol"
  contractName := "Token"
  abi := ()
  creationBytes := bytesOf [0]
  runtimeBytes := bytesOf [1, 2]
  creationAuxdata := .empty
  runtimeAuxdata := .empty
  creationLinks := .empty
  runtimeLinks := .empty
  runtimeImmutables := .empty

/-- A vault of the same length that reads one immutable in two places. -/
def vaultCandidate : CandidateArtifact Unit where
  fileName := "Vault.sol"
  contractName := "Vault"
  abi := ()
  creationBytes := bytesOf [0]
  runtimeBytes := bytesOf [0, 0]
  creationAuxdata := .empty
  runtimeAuxdata := .empty
  creationLinks := .empty
  runtimeLinks := .empty
  runtimeImmutables := ⟨[("7", [⟨0, 1⟩, ⟨1, 1⟩])], List.nodup_singleton _⟩

/-- The code on the chain: two bytes. -/
def vaultCode : OnchainCode := ⟨[], bytesOf [7, 7], none, none⟩

theorem readOnchain_vault : readOnchain ⟨"", "0x0707"⟩ = .ok vaultCode := by decide +kernel

theorem verify_vault_vault : (verifyCandidate vaultCode vaultCandidate).isOk = true := by
  decide +kernel

theorem verify_vault_token : (verifyCandidate vaultCode tokenCandidate).map
    (fun r => r.creation.isSome || r.runtime.isSome) = .ok false := by
  decide +kernel

/-- Neither candidate is faulty. -/
theorem vault_not_faulty :
    ¬ vaultCode.Faulty vaultCandidate ∧ ¬ vaultCode.Faulty tokenCandidate := by
  rw [← verifyCandidate_error_iff, ← verifyCandidate_error_iff]
  constructor
  · rintro ⟨err, h⟩
    have hok := verify_vault_vault
    rw [h] at hok
    cases hok
  · rintro ⟨err, h⟩
    have hok := verify_vault_token
    rw [h] at hok
    cases hok

/-- The token is not among the matches. -/
theorem vault_not_matches : ¬ vaultCode.Matches tokenCandidate := by
  have hok := vaultCode.verified_ok vault_not_faulty.2
  obtain ⟨-, hcreation, hruntime⟩ := verifyCandidate_ok hok
  have hnone := verify_vault_token
  rw [hok] at hnone
  obtain ⟨hc, hr⟩ := Bool.or_eq_false_iff.mp (ok.inj hnone)
  rintro (⟨details, h⟩ | ⟨details, h⟩)
  · rw [ok.inj (hcreation.symm.trans h)] at hc
    cases hc
  · rw [ok.inj (hruntime.symm.trans h)] at hr
    cases hr

/-- The names of the verifications of a result. -/
def namesOf (result : Except VerifyError (List (CandidateVerification Unit))) :
    Except VerifyError (List String) :=
  result.map (List.map fun r => r.candidate.fullyQualifiedName)

/-- The vault under another name. -/
def safeCandidate : CandidateArtifact Unit :=
  { vaultCandidate with fileName := "Safe.sol", contractName := "Safe" }

theorem verify_vault_safe : (verifyCandidate vaultCode safeCandidate).isOk = true := by
  decide +kernel

/-- Adding the token leaves the verification of the vault as it is. -/
theorem candidate_independent_vault : othersOf "Token.sol:Token" (verifyCandidateArtifacts
        ([] ++ tokenCandidate :: [vaultCandidate]) ⟨"", "0x0707"⟩ "" true)
      = othersOf "Token.sol:Token" (verifyCandidateArtifacts
        ([] ++ [vaultCandidate]) ⟨"", "0x0707"⟩ "" true) := by
  refine (candidate_independent_iff (by decide +kernel) ?_).mpr ?_
  · intro onchain hread
    cases readOnchain_vault.symm.trans hread
    exact vault_not_matches
  · intro onchain hread
    cases readOnchain_vault.symm.trans hread
    exact .inl vault_not_faulty.2

/-- **The vault fails the verification of the token**: its immutable meets the two bytes
    of the token's code. -/
theorem candidate_dependent :
    vaultCandidate.Extracted metadataMode .solidity
      ∧ tokenCandidate.Extracted metadataMode .solidity
      ∧ namesOf (verifyCandidateArtifacts [tokenCandidate] ⟨"", "0x0102"⟩ "" true)
        = .ok ["Token.sol:Token"]
      ∧ namesOf
        (verifyCandidateArtifacts [vaultCandidate, tokenCandidate] ⟨"", "0x0102"⟩ "" true)
        = .error repeatedValuesError := by
  refine ⟨?_, ?_, by decide +kernel, by decide +kernel⟩
  · exact ⟨by decide, by decide, by decide +kernel, by decide +kernel, by decide +kernel, nofun,
      nofun, ⟨_, locateAuxdata_self (by decide)⟩, ⟨_, locateAuxdata_self (by decide)⟩⟩
  · exact ⟨by decide, by decide, by decide +kernel, by decide +kernel, by decide +kernel, nofun,
      nofun, ⟨_, locateAuxdata_self (by decide)⟩, ⟨_, locateAuxdata_self (by decide)⟩⟩

end Verify
