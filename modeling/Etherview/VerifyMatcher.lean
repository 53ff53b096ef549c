import Etherview.VerifyFooter
import Etherview.VerifyMatching

/-! # Matching Solidity code with masked immutables

    `matchSolidityBytecode` of `internal/verify/matcher.go`.  The ranges of immutables are
    cleared in both codes; the codes match exactly when what is left is the same.  With
    metadata enabled, codes that differ in their footers only match up to metadata.

    Clearing skips a range that does not fit.  Every path to a comparison checks that the
    ranges fit, so nothing is skipped there, and a cleared code is the code overlaid with
    zeros (`maskBytecodeRanges_mix`): two of them are equal iff the codes agree outside
    the ranges. -/

namespace Verify

open Hex Patch Transact List

/-! ## The matcher -/

/-- `MatchKind`, as far as the matcher returns it. -/
inductive MatchKind where
  | exact
  | metadataOnly
  | mismatch
deriving DecidableEq, Repr

/-- A range ends at a boundary or before. -/
def fitsBefore (boundary : Nat) (span : BytecodeRange) : Prop :=
  ¬ (span.start > boundary ∨ span.length > boundary - span.start)

instance (boundary : Nat) (span : BytecodeRange) : Decidable (fitsBefore boundary span) :=
  inferInstanceAs (Decidable (¬ _))

/-- All ranges end at a boundary or before. -/
def rangesFitBefore (references : ImmutableReferences) (boundary : Nat) : Bool :=
  references.entries.all fun entry => entry.2.all fun span => fitsBefore boundary span

/-- What masked bytes become. -/
def clearedByte : Byte := Fin.ofNat 256 0

/-- The body of the loops of `maskBytecodeRanges`. -/
def clearRange (bytecode : List Byte) (span : BytecodeRange) : List Byte :=
  if fitsBefore bytecode.length span then
    write bytecode span.start (List.replicate span.length clearedByte)
  else bytecode

/-- Clears all ranges that fit. -/
def maskBytecodeRanges (bytecode : List Byte) (references : ImmutableReferences) : List Byte :=
  references.entries.foldl (fun bytecode entry => entry.2.foldl clearRange bytecode) bytecode

/-- The loop over the ranges of one immutable: they fit, and carry the value found first. -/
def carryValue (onchain : List Byte) : Option (List Byte) → List BytecodeRange → Bool
  | _, [] => true
  | value, span :: rest =>
    if fitsBefore onchain.length span then
      match value with
      | none => carryValue onchain (some (window onchain span)) rest
      | some value =>
        if value = window onchain span then carryValue onchain (some value) rest else false
    else false

/-- The code on the chain carries one value for each immutable, before its footer. -/
def validOnchainImmutableReferences (mode : CborMode) (references : ImmutableReferences)
    (onchain : List Byte) (metadataEnabled : Bool) : Bool :=
  if references.entries.all fun entry => carryValue onchain none entry.2 then
    if metadataEnabled then
      match decodeExclusiveMapFooter mode onchain with
      | some footer => rangesFitBefore references footer.start
      | none => true
    else true
  else false

/-- The second part of `matchSolidityBytes`, for codes that do not match exactly. -/
def matchMetadataOnly (mode : CborMode) (onchain compiled : List Byte)
    (references : ImmutableReferences) : MatchKind :=
  match decodeExclusiveMapFooter mode onchain, decodeExclusiveMapFooter mode compiled with
  | some onchainFooter, some compiledFooter =>
    if onchainFooter.raw = compiledFooter.raw ∨ onchainFooter.start ≠ compiledFooter.start then
      .mismatch
    else
      let onchainCore := onchain.take onchainFooter.start
      let compiledCore := compiled.take compiledFooter.start
      if rangesFitBefore references onchainCore.length = false then .mismatch
      else if maskBytecodeRanges onchainCore references
          = maskBytecodeRanges compiledCore references then
        .metadataOnly
      else .mismatch
  | _, _ => .mismatch

/-- Compares two codes without their immutables, and then without their metadata. -/
def matchSolidityBytes (mode : CborMode) (onchain compiled : List Byte)
    (references : ImmutableReferences) (metadataEnabled : Bool) : MatchKind :=
  if onchain.length = compiled.length
      ∧ maskBytecodeRanges onchain references = maskBytecodeRanges compiled references then
    .exact
  else if metadataEnabled = false then .mismatch
  else matchMetadataOnly mode onchain compiled references

/-- `matchSolidityBytecode`, with the checks of both codes. -/
def matchSolidityBytecode (mode : CborMode) (onchain compiled : String)
    (references : ImmutableReferences) (metadataEnabled : Bool) : Except VerifyError MatchKind := do
  let onchainBytes ← (decodeBytecode onchain).mapError fun _ => .onchainCodeMalformed
  let compiledBytes ← (decodeBytecode compiled).mapError fun _ => .compiledCodeMalformed
  failIf (metadataEnabled = true ∧ ∃ footer ∈ decodeExclusiveMapFooter mode compiledBytes,
    rangesFitBefore references footer.start = false) .compilerOutputMalformed
  if validOnchainImmutableReferences mode references onchainBytes metadataEnabled then
    return matchSolidityBytes mode onchainBytes compiledBytes references metadataEnabled
  else return .mismatch

/-! ## Ranges and masks -/

/-- All ranges of the immutables. -/
def referenced (references : ImmutableReferences) : List BytecodeRange :=
  references.entries.flatMap Prod.snd

section Masks

variable {references : ImmutableReferences} {onchain compiled code : List Byte}
  {boundary : Nat} {span : BytecodeRange}

theorem fitsBefore_iff : fitsBefore boundary span ↔ span.stop ≤ boundary := by
  unfold fitsBefore Region.stop
  omega

/-- The ranges fit iff each ends before the boundary. -/
theorem rangesFitBefore_iff :
    rangesFitBefore references boundary = true ↔ ∀ r ∈ referenced references,
      r.stop ≤ boundary := by
  unfold rangesFitBefore referenced
  simp only [all_eq_true, decide_eq_true_iff, fitsBefore_iff, mem_flatMap]
  constructor
  · rintro h r ⟨e, he, hr⟩
    exact h e he r hr
  · intro h e he r hr
    exact h r ⟨e, he, hr⟩

theorem clearRange_eq {n : Nat} (hlen : code.length = n) (h : span.stop ≤ n) :
    clearRange code span = write code span.start (window (replicate n clearedByte) span) := by
  have hwindow : window (replicate n clearedByte) span = replicate span.length clearedByte := by
    unfold Region.stop at h
    rw [window, drop_replicate, take_replicate, min_eq_left (by omega)]
  rw [clearRange, if_pos (fitsBefore_iff.mpr (hlen ▸ h)), hwindow]

/-- The loops clear the ranges one after the other. -/
theorem maskBytecodeRanges_eq :
    maskBytecodeRanges code references = (referenced references).foldl clearRange code := by
  unfold maskBytecodeRanges referenced
  rw [foldl_flatMap]

/-- **A masked code** is the code overlaid with zeros, as far as the ranges fit. -/
theorem maskBytecodeRanges_mix (h : ∀ r ∈ referenced references, r.stop ≤ code.length) :
    Mix (replicate code.length clearedByte) code (referenced references)
      (maskBytecodeRanges code references) := by
  have hrun : ∀ (spans regions : List BytecodeRange) (l : List Byte),
      (∀ r ∈ spans, r.stop ≤ code.length) →
      Mix (replicate code.length clearedByte) code regions l →
      spans.foldl clearRange l = copyAll (replicate code.length clearedByte) spans l := by
    intro spans
    induction spans with
    | nil => exact fun _ _ _ _ => rfl
    | cons r rest ih =>
      intro regions l hspans hmix
      have hr := hspans r mem_cons_self
      rw [foldl_cons, clearRange_eq hmix.length_eq hr]
      exact ih (r :: regions) _ (fun s hs => hspans s (mem_cons_of_mem _ hs))
        (hmix.write (by rw [length_replicate]; exact hr) hr)
  rw [maskBytecodeRanges_eq, hrun _ [] _ h (Mix.base _ _)]
  exact (Mix.base _ _).copyAll (by rw [length_replicate]) h

theorem maskBytecodeRanges_eq_iff (hlen : onchain.length = compiled.length)
    (h : ∀ r ∈ referenced references, r.stop ≤ compiled.length) :
    maskBytecodeRanges onchain references = maskBytecodeRanges compiled references ↔
      AgreeOutside (referenced references) onchain compiled := by
  have hin : ∀ r ∈ referenced references, r.stop ≤ onchain.length :=
    fun r hr => hlen ▸ h r hr
  have honchain := maskBytecodeRanges_mix hin
  rw [hlen] at honchain
  exact honchain.overlaid_eq_iff (maskBytecodeRanges_mix h) hlen

variable {ranges : List BytecodeRange}

/-- The loop over the ranges of one immutable. -/
theorem carryValue_some {value : List Byte} : carryValue onchain (some value) ranges = true ↔
      ∀ r ∈ ranges, r.stop ≤ onchain.length ∧ window onchain r = value := by
  induction ranges with
  | nil => exact ⟨fun _ r hr => (by cases hr), fun _ => rfl⟩
  | cons span rest ih =>
    rw [carryValue, forall_mem_cons, ← ih]
    by_cases hfit : fitsBefore onchain.length span
    · rw [if_pos hfit]
      by_cases hvalue : value = window onchain span
      · simp only [if_pos hvalue]
        exact ⟨fun h => ⟨⟨fitsBefore_iff.mp hfit, hvalue.symm⟩, h⟩, fun h => h.2⟩
      · simp only [if_neg hvalue]
        exact ⟨fun h => (by cases h), fun h => absurd h.1.2.symm hvalue⟩
    · rw [if_neg hfit]
      exact ⟨fun h => (by cases h), fun h => absurd (fitsBefore_iff.mpr h.1.1) hfit⟩

/-- The loop accepts iff the ranges fit and carry one value. -/
theorem carryValue_none : carryValue onchain none ranges = true ↔
      (∀ r ∈ ranges, r.stop ≤ onchain.length) ∧ SameValue onchain ranges := by
  cases ranges with
  | nil => exact ⟨fun _ => ⟨nofun, nofun⟩, fun _ => rfl⟩
  | cons span rest =>
    rw [carryValue]
    by_cases hfit : fitsBefore onchain.length span
    · rw [if_pos hfit, carryValue_some]
      constructor
      · intro h
        have hfirst : ∀ r ∈ span :: rest, r.stop ≤ onchain.length
            ∧ window onchain r = window onchain span :=
          forall_mem_cons.mpr ⟨⟨fitsBefore_iff.mp hfit, rfl⟩, h⟩
        exact ⟨fun r hr => (hfirst r hr).1,
          fun r hr s hs => (hfirst r hr).2.trans (hfirst s hs).2.symm⟩
      · rintro ⟨hin, hsame⟩ r hr
        exact ⟨hin r (mem_cons_of_mem _ hr), hsame r (mem_cons_of_mem _ hr) span mem_cons_self⟩
    · rw [if_neg hfit]
      exact ⟨fun h => (by cases h),
        fun h => absurd (fitsBefore_iff.mpr (h.1 span mem_cons_self)) hfit⟩

/-- Every immutable carries one value, in ranges of the code and before its footer. -/
structure Carried (mode : CborMode) (references : ImmutableReferences) (onchain : List Byte)
    (metadataEnabled : Bool) : Prop where
  inside : ∀ r ∈ referenced references, r.stop ≤ onchain.length
  same : ∀ e ∈ references.entries, SameValue onchain e.2
  before : metadataEnabled = true → ∀ footer ∈ decodeExclusiveMapFooter mode onchain,
    ∀ r ∈ referenced references, r.stop ≤ footer.start

/-- What the check of the immutables accepts. -/
theorem validOnchainImmutableReferences_iff {mode : CborMode} {metadataEnabled : Bool} :
    validOnchainImmutableReferences mode references onchain metadataEnabled = true ↔
      Carried mode references onchain metadataEnabled := by
  have hvalues : (references.entries.all fun e => carryValue onchain none e.2) = true ↔
      (∀ r ∈ referenced references, r.stop ≤ onchain.length)
        ∧ ∀ e ∈ references.entries, SameValue onchain e.2 := by
    simp only [all_eq_true, carryValue_none]
    constructor
    · intro h
      refine ⟨fun r hr => ?_, fun e he => (h e he).2⟩
      obtain ⟨e, he, hre⟩ := mem_flatMap.mp hr
      exact (h e he).1 r hre
    · rintro ⟨hin, hsame⟩ e he
      exact ⟨fun r hr => hin r (mem_flatMap.mpr ⟨e, he, hr⟩), hsame e he⟩
  unfold validOnchainImmutableReferences
  by_cases hall : (references.entries.all fun e => carryValue onchain none e.2) = true
  · rw [if_pos hall]
    obtain ⟨hin, hsame⟩ := hvalues.mp hall
    cases metadataEnabled with
    | false => exact ⟨fun _ => ⟨hin, hsame, nofun⟩, fun _ => rfl⟩
    | true =>
      rw [if_pos rfl]
      cases hfooter : decodeExclusiveMapFooter mode onchain with
      | none =>
        refine ⟨fun _ => ⟨hin, hsame, fun _ footer h => ?_⟩, fun _ => rfl⟩
        rw [hfooter] at h
        cases h
      | some footer =>
        simp only [rangesFitBefore_iff]
        constructor
        · intro h
          refine ⟨hin, hsame, fun _ f hf => ?_⟩
          rw [hfooter] at hf
          cases hf
          exact h
        · intro h
          exact h.before rfl footer hfooter
  · rw [if_neg hall]
    exact ⟨fun h => (by cases h), fun h => absurd (hvalues.mpr ⟨h.inside, h.same⟩) hall⟩

end Masks

/-! ## The three results -/

section Results

variable (mode : CborMode) (onchain compiled : List Byte) (references : ImmutableReferences)
  (metadataEnabled : Bool)

/-- The compiled code has a footer, and a range does not fit before it. -/
def CompiledMalformed : Prop :=
  metadataEnabled = true ∧ ∃ footer ∈ decodeExclusiveMapFooter mode compiled,
    ∃ r ∈ referenced references, ¬ r.stop ≤ footer.start

/-- Codes of one length that agree outside the ranges, with one value per immutable. -/
structure ExactMatch : Prop where
  length_eq : onchain.length = compiled.length
  agree : AgreeOutside (referenced references) onchain compiled
  same : ∀ e ∈ references.entries, SameValue onchain e.2
  before : metadataEnabled = true → ∀ footer ∈ decodeExclusiveMapFooter mode onchain,
    ∀ r ∈ referenced references, r.stop ≤ footer.start

/-- Codes with different footers at the same place, in front of which they match. -/
def MetadataMatch : Prop :=
  ¬ ExactMatch mode onchain compiled references metadataEnabled ∧ metadataEnabled = true
    ∧ ∃ onchainFooter ∈ decodeExclusiveMapFooter mode onchain,
      ∃ compiledFooter ∈ decodeExclusiveMapFooter mode compiled,
        onchainFooter.start = compiledFooter.start ∧ onchainFooter.raw ≠ compiledFooter.raw
        ∧ (∀ r ∈ referenced references, r.stop ≤ onchainFooter.start)
        ∧ (∀ e ∈ references.entries, SameValue onchain e.2)
        ∧ AgreeOutside (referenced references) (onchain.take onchainFooter.start)
          (compiled.take compiledFooter.start)

end Results

section Characterisation

variable {mode : CborMode} {onchain compiled : List Byte} {references : ImmutableReferences}
  {metadataEnabled : Bool}

theorem DecodedFooter.start_lt {footer : DecodedFooter}
    (h : decodeExclusiveMapFooter mode onchain = some footer) : footer.start < onchain.length := by
  obtain ⟨⟨members, hfooter⟩, -⟩ := decodeExclusiveMapFooter_eq.mp h
  have := hfooter.long
  omega

/-- An exact match carries its immutables, when the ranges fit the compiled code. -/
theorem ExactMatch.carried (h : ExactMatch mode onchain compiled references metadataEnabled)
    (hin : ∀ r ∈ referenced references, r.stop ≤ compiled.length) :
    Carried mode references onchain metadataEnabled :=
  ⟨fun r hr => h.length_eq ▸ hin r hr, h.same, h.before⟩

theorem MetadataMatch.carried (h : MetadataMatch mode onchain compiled references metadataEnabled) :
    Carried mode references onchain metadataEnabled := by
  obtain ⟨-, -, footer, hfooter, -, -, -, -, hbefore, hsame, -⟩ := h
  refine ⟨fun r hr => ?_, hsame, fun _ f hf => ?_⟩
  · exact (hbefore r hr).trans (DecodedFooter.start_lt hfooter).le
  · cases Option.mem_unique hfooter hf
    exact hbefore

/-- The first comparison, on carried immutables. -/
theorem exact_iff (hin : ∀ r ∈ referenced references, r.stop ≤ compiled.length)
    (hcarried : Carried mode references onchain metadataEnabled) :
    (onchain.length = compiled.length
      ∧ maskBytecodeRanges onchain references = maskBytecodeRanges compiled references) ↔
      ExactMatch mode onchain compiled references metadataEnabled := by
  constructor
  · rintro ⟨hlen, hmask⟩
    exact ⟨hlen, (maskBytecodeRanges_eq_iff hlen hin).mp hmask, hcarried.same, hcarried.before⟩
  · intro h
    exact ⟨h.length_eq, (maskBytecodeRanges_eq_iff h.length_eq hin).mpr h.agree⟩

/-- The second comparison. -/
theorem matchMetadataOnly_eq (hsame : ∀ e ∈ references.entries, SameValue onchain e.2)
    (hnot : ¬ ExactMatch mode onchain compiled references true) :
    (matchMetadataOnly mode onchain compiled references = .metadataOnly
        ∧ MetadataMatch mode onchain compiled references true)
      ∨ (matchMetadataOnly mode onchain compiled references = .mismatch
        ∧ ¬ MetadataMatch mode onchain compiled references true) := by
  unfold matchMetadataOnly
  cases hf : decodeExclusiveMapFooter mode onchain with
  | none =>
    refine .inr ⟨rfl, ?_⟩
    rintro ⟨-, -, f, hf', -⟩
    rw [hf] at hf'
    cases hf'
  | some f =>
    cases hg : decodeExclusiveMapFooter mode compiled with
    | none =>
      refine .inr ⟨rfl, ?_⟩
      rintro ⟨-, -, -, -, g, hg', -⟩
      rw [hg] at hg'
      cases hg'
    | some g =>
      -- both codes have a footer, and a code has one only
      have hunique : MetadataMatch mode onchain compiled references true ↔
          f.start = g.start ∧ f.raw ≠ g.raw
            ∧ (∀ r ∈ referenced references, r.stop ≤ f.start)
            ∧ AgreeOutside (referenced references) (onchain.take f.start)
              (compiled.take g.start) := by
        constructor
        · rintro ⟨-, -, f', hf', g', hg', hstart, hraw, hfit, -, hagree⟩
          cases Option.mem_unique hf hf'
          cases Option.mem_unique hg hg'
          exact ⟨hstart, hraw, hfit, hagree⟩
        · rintro ⟨hstart, hraw, hfit, hagree⟩
          exact ⟨hnot, rfl, f, hf, g, hg, hstart, hraw, hfit, hsame, hagree⟩
      have hlen : (onchain.take f.start).length = f.start := by
        rw [length_take, min_eq_left (DecodedFooter.start_lt hf).le]
      have hlen' : (compiled.take g.start).length = g.start := by
        rw [length_take, min_eq_left (DecodedFooter.start_lt hg).le]
      rw [hunique]
      simp only [hlen]
      split_ifs with hraw hfit hmask
      · refine .inr ⟨rfl, fun h => ?_⟩
        exact hraw.elim (fun heq => h.2.1 heq) (fun hne => hne h.1)
      · refine .inr ⟨rfl, fun h => ?_⟩
        rw [rangesFitBefore_iff.mpr h.2.2.1] at hfit
        cases hfit
      -- the two codes in front of their footers have one length
      all_goals
        obtain ⟨hne, hstart⟩ := not_or.mp hraw
        have hstart := not_not.mp hstart
        have hranges := rangesFitBefore_iff.mp (Bool.eq_true_of_not_eq_false hfit)
        have hlengths := hlen.trans (hstart.trans hlen'.symm)
        have hiff := maskBytecodeRanges_eq_iff hlengths
          (fun r hr => (hranges r hr).trans (hstart.trans hlen'.symm).le)
      · exact .inl ⟨rfl, hstart, hne, hranges, hiff.mp hmask⟩
      · exact .inr ⟨rfl, fun h => hmask (hiff.mpr h.2.2.2)⟩

/-- A match up to metadata is not malformed: its footers start at one place. -/
theorem MetadataMatch.not_malformed
    (h : MetadataMatch mode onchain compiled references metadataEnabled) :
    ¬ CompiledMalformed mode compiled references metadataEnabled := by
  rintro ⟨-, g, hg, r, hr, hout⟩
  obtain ⟨-, -, f, -, g', hg', hstart, -, hfit, -, -⟩ := h
  cases Option.mem_unique hg hg'
  exact hout (hstart ▸ hfit r hr)

/-- The outcomes of the matcher, each with what it says. -/
theorem matchSolidityBytecode_cases {onchainText compiledText : String}
    (honchain : decodeBytecode onchainText = .ok onchain)
    (hcompiled : decodeBytecode compiledText = .ok compiled)
    (hin : ∀ r ∈ referenced references, r.stop ≤ compiled.length) :
    (matchSolidityBytecode mode onchainText compiledText references metadataEnabled
        = .error .compilerOutputMalformed
      ∧ CompiledMalformed mode compiled references metadataEnabled)
    ∨ ¬ CompiledMalformed mode compiled references metadataEnabled
      ∧ ((matchSolidityBytecode mode onchainText compiledText references metadataEnabled
            = .ok .exact
          ∧ ExactMatch mode onchain compiled references metadataEnabled)
        ∨ (matchSolidityBytecode mode onchainText compiledText references metadataEnabled
            = .ok .metadataOnly
          ∧ MetadataMatch mode onchain compiled references metadataEnabled)
        ∨ (matchSolidityBytecode mode onchainText compiledText references metadataEnabled
            = .ok .mismatch
          ∧ ¬ ExactMatch mode onchain compiled references metadataEnabled
          ∧ ¬ MetadataMatch mode onchain compiled references metadataEnabled)) := by
  have hmalformed :
      (metadataEnabled = true ∧ ∃ footer ∈ decodeExclusiveMapFooter mode compiled,
      rangesFitBefore references footer.start = false) ↔
      CompiledMalformed mode compiled references metadataEnabled := by
    unfold CompiledMalformed
    simp only [← Bool.not_eq_true, rangesFitBefore_iff]
    push Not
    rfl
  have hresult : matchSolidityBytecode mode onchainText compiledText references metadataEnabled
      = (failIf (metadataEnabled = true ∧ ∃ footer ∈ decodeExclusiveMapFooter mode compiled,
          rangesFitBefore references footer.start = false) .compilerOutputMalformed >>= fun _ =>
        if validOnchainImmutableReferences mode references onchain metadataEnabled then
          .ok (matchSolidityBytes mode onchain compiled references metadataEnabled)
        else .ok .mismatch) := by
    unfold matchSolidityBytecode
    rw [honchain, hcompiled]
    rfl
  rw [hresult]
  -- the compiled code is checked first, whatever the chain has
  by_cases hmal : CompiledMalformed mode compiled references metadataEnabled
  · left
    rw [failIf, if_pos (hmalformed.mpr hmal)]
    exact ⟨rfl, hmal⟩
  right
  refine ⟨hmal, ?_⟩
  rw [failIf, if_neg (fun h => hmal (hmalformed.mp h))]
  show (if _ then _ else _) = _ ∧ _ ∨ (if _ then _ else _) = _ ∧ _
    ∨ (if _ then _ else _) = _ ∧ _
  by_cases hvalid : validOnchainImmutableReferences mode references onchain metadataEnabled = true
  · have hcarried := validOnchainImmutableReferences_iff.mp hvalid
    rw [if_pos hvalid]
    unfold matchSolidityBytes
    by_cases hexact : ExactMatch mode onchain compiled references metadataEnabled
    · rw [if_pos ((exact_iff hin hcarried).mpr hexact)]
      exact .inl ⟨rfl, hexact⟩
    · rw [if_neg (fun h => hexact ((exact_iff hin hcarried).mp h))]
      cases metadataEnabled with
      | false => exact .inr (.inr ⟨rfl, hexact, fun h => (by cases h.2.1)⟩)
      | true =>
        rw [if_neg (fun h => (by cases h))]
        rcases matchMetadataOnly_eq hcarried.same hexact
          with ⟨hkind, hmeta⟩ | ⟨hkind, hmeta⟩
        · rw [hkind]
          exact .inr (.inl ⟨rfl, hmeta⟩)
        · rw [hkind]
          exact .inr (.inr ⟨rfl, hexact, hmeta⟩)
  · -- the immutables are not carried, so neither kind of match is possible
    rw [if_neg hvalid]
    have hnot : ¬ Carried mode references onchain metadataEnabled :=
      fun h => hvalid (validOnchainImmutableReferences_iff.mpr h)
    exact .inr (.inr ⟨rfl, fun h => hnot (h.carried hin), fun h => hnot h.carried⟩)

/-- **The matcher characterised**, for references that lie in the compiled code: it fails
    on malformed output, and otherwise finds an exact match, a match up to metadata, or a
    mismatch, each exactly when it is one. -/
theorem solidity_match_characterised {onchainText compiledText : String}
    (honchain : decodeBytecode onchainText = .ok onchain)
    (hcompiled : decodeBytecode compiledText = .ok compiled)
    (hin : ∀ r ∈ referenced references, 0 < r.length ∧ r.stop ≤ compiled.length) :
    (matchSolidityBytecode mode onchainText compiledText references metadataEnabled
        = .error .compilerOutputMalformed ↔
      CompiledMalformed mode compiled references metadataEnabled)
    ∧ (matchSolidityBytecode mode onchainText compiledText references metadataEnabled
      = .ok .exact ↔
      ¬ CompiledMalformed mode compiled references metadataEnabled
        ∧ ExactMatch mode onchain compiled references metadataEnabled)
    ∧ (matchSolidityBytecode mode onchainText compiledText references metadataEnabled
        = .ok .metadataOnly ↔ MetadataMatch mode onchain compiled references metadataEnabled)
    ∧ (matchSolidityBytecode mode onchainText compiledText references metadataEnabled
        = .ok .mismatch ↔
      ¬ CompiledMalformed mode compiled references metadataEnabled
        ∧ ¬ ExactMatch mode onchain compiled references metadataEnabled
        ∧ ¬ MetadataMatch mode onchain compiled references metadataEnabled) := by
  have hnot : CompiledMalformed mode compiled references metadataEnabled →
      ¬ MetadataMatch mode onchain compiled references metadataEnabled :=
    fun hmal h => h.not_malformed hmal
  rcases matchSolidityBytecode_cases honchain hcompiled (fun r hr => (hin r hr).2) with
    ⟨hr, hmal⟩ | ⟨hmal, ⟨hr, hexact⟩ | ⟨hr, hmeta⟩ | ⟨hr, hexact, hmeta⟩⟩
  · rw [hr]
    simp [hmal, hnot hmal]
  · have hmeta : ¬ MetadataMatch mode onchain compiled references metadataEnabled :=
      fun h => h.1 hexact
    rw [hr]
    simp [hmal, hexact, hmeta]
  · have hexact := hmeta.1
    rw [hr]
    simp [hmal, hexact, hmeta]
  · rw [hr]
    simp [hmal, hexact, hmeta]

end Characterisation

/-- One immutable byte is masked. -/
theorem solidity_match_masked : matchSolidityBytecode metadataMode "0x0102" "0x0100"
      ⟨[("7", [⟨1, 1⟩])], nodup_singleton _⟩ false = .ok .exact := by
  have honchain : decodeBytecode "0x0102" = .ok (bytesOf [1, 2]) := by decide +kernel
  have hcompiled : decodeBytecode "0x0100" = .ok (bytesOf [1, 0]) := by decide +kernel
  refine (solidity_match_characterised honchain hcompiled (by decide +kernel)).2.1.mpr ⟨?_, ?_⟩
  · rintro ⟨h, -⟩
    cases h
  · exact ⟨rfl, by decide +kernel, by decide +kernel, nofun⟩

/-- The code on the chain has the length of the compiled code and agrees with it outside
    the ranges, its immutable carries one value, and it has no footer; but the compiled
    code has one that the range lies in. -/
theorem solidity_match_malformed :
    ExactMatch metadataMode (bytesOf [0, 161, 100, 115, 111, 108, 99, 255, 8, 21, 29, 0, 10])
        versionedCode ⟨[("7", [⟨7, 1⟩])], nodup_singleton _⟩ true
      ∧ matchSolidityBytecode metadataMode
          (Hex.text (bytesOf [0, 161, 100, 115, 111, 108, 99, 255, 8, 21, 29, 0, 10]))
          (Hex.text versionedCode) ⟨[("7", [⟨7, 1⟩])], nodup_singleton _⟩ true
        = .error .compilerOutputMalformed := by
  have hnone : decodeExclusiveMapFooter metadataMode
      (bytesOf [0, 161, 100, 115, 111, 108, 99, 255, 8, 21, 29, 0, 10]) = none := by
    decide +kernel
  refine ⟨⟨by decide, by decide +kernel, by decide +kernel, fun _ footer hfooter => ?_⟩,
    by decide +kernel⟩
  cases hfooter

end Verify
