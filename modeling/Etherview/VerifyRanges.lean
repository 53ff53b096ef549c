import Mathlib.Data.String.Basic
import Etherview.GoMap
import Etherview.Hex
import Etherview.Patch
import Etherview.StoreRepository

/-! # Bytecode ranges

    `internal/verify/matcher.go`: the ranges a compiler reports for its code, their
    validation, and the hexadecimal text of code.

    * `validateRanges` sorts the ranges and sweeps over them; what it accepts is a
      bounded number of non-empty ranges inside the code that are pairwise apart
      (`validateRanges_eq_ok`), whatever the order they come in.
    * The checks of link and immutable references collect the ranges of a map in
      the order of a walk and hand them to `validateRanges`.
    * `decodeBytecode` reads back what `Hex.text` writes. -/

namespace Verify

open Hex Patch Transact List

/-! ## Limits and errors -/

/-- The ranges of one code. -/
def maxMatcherRanges : Nat := 4096

/-- `64 << 20`. -/
def maxMatcherBytecodeBytes : Nat := 67108864

/-- The errors of the matcher: its sentinels, and errors that are only a text. -/
inductive VerifyError where
  | compilerOutputMalformed
  | compiledCodeMalformed
  | onchainCodeMalformed
  | other (text : String)
deriving DecidableEq, Repr

/-- The texts of the errors. -/
def VerifyError.text : VerifyError → String
  | .compilerOutputMalformed => "compiler output is malformed"
  | .compiledCodeMalformed => "compiler output bytecode is malformed"
  | .onchainCodeMalformed => "on-chain bytecode is malformed"
  | .other text => text

/-- `bytecodeRange`.  The heights of a range are unbounded here: every function that
    reads a range compares it with the length of a code before it adds the two. -/
abbrev BytecodeRange := Region

/-! ## Validation of ranges -/

/-- The order `validateRanges` sorts by. -/
def rangeLE (left right : BytecodeRange) : Prop :=
  if left.start = right.start then left.length ≤ right.length else left.start < right.start

instance : DecidableRel rangeLE := fun left right => by
  unfold rangeLE
  infer_instance

instance : Std.Total rangeLE where
  total := by
    intro a b
    unfold rangeLE
    by_cases h : a.start = b.start
    · rw [if_pos h, if_pos h.symm]
      exact Nat.le_total _ _
    · rw [if_neg h, if_neg (Ne.symm h)]
      omega

instance : IsTrans BytecodeRange rangeLE where
  trans := by
    intro a b c hab hbc
    unfold rangeLE at hab hbc ⊢
    split_ifs at hab hbc ⊢ <;> omega

/-- A range inside a code of the given length. -/
def rangeInside (byteLength : Nat) (span : BytecodeRange) : Prop :=
  ¬ (span.length = 0 ∨ span.start > byteLength ∨ span.length > byteLength - span.start)

instance (byteLength : Nat) (span : BytecodeRange) : Decidable (rangeInside byteLength span) :=
  inferInstanceAs (Decidable (¬ _))

variable {byteLength : Nat}

theorem rangeInside_iff {span : BytecodeRange} :
    rangeInside byteLength span ↔ 0 < span.length ∧ span.stop ≤ byteLength := by
  unfold rangeInside Region.stop
  omega

/-- The sweep over the sorted ranges; `previousEnd` is the end of the range before.
    The first range is compared with 0, which no start is below. -/
def sweepRanges (byteLength : Nat) : Nat → List BytecodeRange → Except VerifyError Unit
  | _, [] => .ok ()
  | previousEnd, span :: rest => do
      failIf (¬ rangeInside byteLength span) .compilerOutputMalformed
      failIf (span.start < previousEnd) .compilerOutputMalformed
      sweepRanges byteLength span.stop rest

/-- `validateRanges`: few ranges, inside the code, without overlap. -/
def validateRanges (ranges : List BytecodeRange) (byteLength : Nat) : Except VerifyError Unit := do
  failIf (ranges.length > maxMatcherRanges) .compilerOutputMalformed
  sweepRanges byteLength 0 (ranges.insertionSort rangeLE)

variable {ranges : List BytecodeRange} {u : Unit}

/-- A sorted list passes the sweep iff its ranges lie inside, behind `previousEnd`
    and apart. -/
theorem sweepRanges_eq_ok {previousEnd : Nat} (hsorted : ranges.Pairwise rangeLE) :
    sweepRanges byteLength previousEnd ranges = .ok u ↔
      (∀ r ∈ ranges, rangeInside byteLength r ∧ previousEnd ≤ r.start)
        ∧ ranges.Pairwise Region.Apart := by
  induction ranges generalizing previousEnd with
  | nil => exact ⟨fun _ => ⟨fun r hr => (by cases hr), List.Pairwise.nil⟩, fun _ => rfl⟩
  | cons span rest ih =>
    obtain ⟨hhead, hrest⟩ := pairwise_cons.mp hsorted
    rw [sweepRanges]
    constructor
    · intro h
      obtain ⟨_, hin, h⟩ := bind_eq_ok.mp h
      obtain ⟨_, hprev, h⟩ := bind_eq_ok.mp h
      rw [failIf_eq_ok, not_not] at hin
      rw [failIf_eq_ok, not_lt] at hprev
      obtain ⟨hall, hapart⟩ := (ih hrest).mp h
      refine ⟨?_, pairwise_cons.mpr ⟨fun r hr => .inl (hall r hr).2, hapart⟩⟩
      intro r hr
      rcases mem_cons.mp hr with rfl | hr
      · exact ⟨hin, hprev⟩
      · have hle : span.stop ≤ r.start := (hall r hr).2
        unfold Region.stop at hle
        exact ⟨(hall r hr).1, by omega⟩
    · rintro ⟨hall, hapart⟩
      obtain ⟨hin, hprev⟩ := hall span mem_cons_self
      obtain ⟨happart, hrestapart⟩ := pairwise_cons.mp hapart
      refine bind_eq_ok.mpr ⟨(), failIf_eq_ok.mpr (not_not.mpr hin),
        bind_eq_ok.mpr ⟨(), failIf_eq_ok.mpr (not_lt.mpr hprev),
          (ih hrest).mpr ⟨fun r hr => ⟨(hall r (mem_cons_of_mem _ hr)).1, ?_⟩,
            hrestapart⟩⟩⟩
      -- a later range starts no earlier, and it is not empty
      have hle := hhead r hr
      have hpos' := (rangeInside_iff.mp hin).1
      rcases happart r hr with h | h
      · exact h
      · unfold Region.stop at h
        unfold rangeLE at hle
        split_ifs at hle <;> omega

/-- What the check of the ranges accepts. -/
theorem validateRanges_eq_ok : validateRanges ranges byteLength = .ok u ↔
      ranges.length ≤ maxMatcherRanges
        ∧ (∀ r ∈ ranges, 0 < r.length ∧ r.stop ≤ byteLength)
        ∧ ranges.Pairwise Region.Apart := by
  have hperm := perm_insertionSort rangeLE ranges
  have hsweep : sweepRanges byteLength 0 (ranges.insertionSort rangeLE) = .ok u ↔ _ :=
    sweepRanges_eq_ok (pairwise_insertionSort rangeLE ranges)
  rw [hperm.pairwise_iff (fun h => Region.Apart.symm h)] at hsweep
  constructor
  · intro h
    obtain ⟨_, hcount, h⟩ := bind_eq_ok.mp h
    rw [failIf_eq_ok, not_lt] at hcount
    obtain ⟨hall, hapart⟩ := hsweep.mp h
    exact ⟨hcount, fun r hr => rangeInside_iff.mp (hall r (hperm.mem_iff.mpr hr)).1, hapart⟩
  · rintro ⟨hcount, hall, hapart⟩
    refine bind_eq_ok.mpr ⟨(), failIf_eq_ok.mpr (not_lt.mpr hcount),
      hsweep.mpr ⟨fun r hr => ⟨rangeInside_iff.mpr (hall r (hperm.mem_iff.mp hr)),
        Nat.zero_le _⟩, hapart⟩⟩

/-! ## References -/

/-- The ranges of the libraries of a code, by source and library name. -/
abbrev LinkReferences := GoMap String (GoMap String (List BytecodeRange))

/-- The ranges of the immutables of a code, by identifier. -/
abbrev ImmutableReferences := GoMap String (List BytecodeRange)

/-- The ranges of a list that all have the length `length`. -/
def sameLength (length : Nat) (ranges : List BytecodeRange) : Except VerifyError Unit :=
  checkAll (fun span => failIf (span.length ≠ length) .compilerOutputMalformed) ranges

/-- The ranges of one immutable: at least one, all of one length. -/
def immutableRanges : String × List BytecodeRange → Except VerifyError (List BytecodeRange)
  | (_, []) => .error .compilerOutputMalformed
  | (identifier, first :: rest) => do
      failIf (identifier = "") .compilerOutputMalformed
      sameLength first.length (first :: rest)
      return first :: rest

/-- The ranges of one library: at least one, each of the size of an address. -/
def libraryRanges : String × List BytecodeRange → Except VerifyError (List BytecodeRange)
  | (library, ranges) => do
      failIf (library = "" ∨ ranges = []) .compilerOutputMalformed
      sameLength 20 ranges
      return ranges

/-- The ranges found by walking a list of entries. -/
def collect {ε : Type} (ranges : ε → Except VerifyError (List BytecodeRange)) :
    List ε → Except VerifyError (List BytecodeRange)
  | [] => .ok []
  | entry :: rest => do
      let first ← ranges entry
      let others ← collect ranges rest
      return first ++ others

variable {ε : Type} {entries : List ε}

/-- The ranges a walk returns are those of its entries, each of which was accepted. -/
theorem collect_ok {ranges : ε → Except VerifyError (List BytecodeRange)}
    {all : List BytecodeRange} (h : collect ranges entries = .ok all) :
    (∀ e ∈ entries, ∃ part, ranges e = .ok part ∧ ∀ r ∈ part, r ∈ all)
      ∧ ∀ r ∈ all, ∃ e ∈ entries, ∃ part, ranges e = .ok part ∧ r ∈ part := by
  induction entries generalizing all with
  | nil =>
    cases h
    exact ⟨fun e he => (by cases he), fun r hr => (by cases hr)⟩
  | cons entry rest ih =>
    obtain ⟨first, hfirst, h⟩ := bind_eq_ok.mp h
    obtain ⟨others, hothers, h⟩ := bind_eq_ok.mp h
    have hall := pure_eq_ok.mp h
    subst hall
    obtain ⟨hevery, hfrom⟩ := ih hothers
    refine ⟨?_, ?_⟩
    · intro e he
      rcases mem_cons.mp he with rfl | he
      · exact ⟨first, hfirst, fun r hr => mem_append_left _ hr⟩
      · obtain ⟨part, hpart, hsub⟩ := hevery e he
        exact ⟨part, hpart, fun r hr => mem_append_right _ (hsub r hr)⟩
    · intro r hr
      rcases mem_append.mp hr with hr | hr
      · exact ⟨entry, mem_cons_self, first, hfirst, hr⟩
      · obtain ⟨e, he, part, hpart, hrp⟩ := hfrom r hr
        exact ⟨e, mem_cons_of_mem _ he, part, hpart, hrp⟩

/-- A walk over entries with one range each. -/
theorem collect_singletons {ranges : ε → Except VerifyError (List BytecodeRange)}
    {range : ε → BytecodeRange} (h : ∀ e ∈ entries, ranges e = .ok [range e]) :
    collect ranges entries = .ok (entries.map range) := by
  induction entries with
  | nil => rfl
  | cons e rest ih =>
    rw [collect, h e mem_cons_self, ih (fun e he => h e (mem_cons_of_mem _ he))]
    rfl

variable {entry : String × List BytecodeRange} {part : List BytecodeRange}

/-- The ranges of an accepted immutable. -/
theorem immutableRanges_ok
    (h : immutableRanges entry = .ok part) : part = entry.2 ∧ entry.2 ≠ [] := by
  obtain ⟨identifier, ranges⟩ := entry
  cases ranges with
  | nil => cases h
  | cons first rest =>
    obtain ⟨_, -, h⟩ := bind_eq_ok.mp h
    obtain ⟨_, -, h⟩ := bind_eq_ok.mp h
    exact ⟨(pure_eq_ok.mp h).symm, cons_ne_nil _ _⟩

theorem libraryRanges_ok (h : libraryRanges entry = .ok part) :
    part = entry.2 ∧ entry.2 ≠ [] := by
  obtain ⟨library, ranges⟩ := entry
  obtain ⟨_, hnames, h⟩ := bind_eq_ok.mp h
  obtain ⟨_, -, h⟩ := bind_eq_ok.mp h
  rw [failIf_eq_ok, not_or] at hnames
  exact ⟨(pure_eq_ok.mp h).symm, hnames.2⟩

/-- `validateLinkReferences` on decoded maps (the source also rejects a `null` in the
    place of a map of libraries). -/
def validateLinkReferences (references : LinkReferences) (byteLength : Nat) :
    Except VerifyError Unit := do
  let all ← collect (fun entry => do
    failIf (entry.1 = "") .compilerOutputMalformed
    collect libraryRanges entry.2.entries) references.entries
  validateRanges all byteLength

/-- The checks of the immutable references. -/
def validateImmutableReferences (references : ImmutableReferences) (compiled : List Byte) :
    Except VerifyError Unit := do
  let all ← collect immutableRanges references.entries
  validateRanges all compiled.length

/-! ## Hexadecimal code -/

/-- The bytes of a hexadecimal code without placeholders. -/
def decodeBytecode (value : String) : Except String (List Byte) := do
  let digits := trimHexPrefix (Texts.trimSpace value).toList
  failIf (String.utf8Len digits % 2 ≠ 0) "hex bytecode has odd length"
  failIf (String.utf8Len digits / 2 > maxMatcherBytecodeBytes)
    "hex bytecode exceeds the matcher limit"
  failIf (digits.any fun c => c == '_' || c == '$')
    "bytecode contains unresolved link placeholders"
  match decode digits with
  | some bytes => .ok bytes
  | none => .error "encoding/hex: invalid byte"

/-- A digit is no space and no placeholder. -/
private theorem digit_plain (d : Fin 16) :
    Texts.isSpace (digitChar d) = false ∧ (digitChar d).utf8Size = 1
      ∧ (digitChar d == '_' || digitChar d == '$') = false := by
  revert d
  decide

private theorem utf8Len_encode (bytes : List Byte) :
    String.utf8Len (encode bytes) = 2 * bytes.length := by
  induction bytes with
  | nil => rfl
  | cons b rest ih =>
    rw [encode, String.utf8Len, String.utf8Len, ih, (digit_plain _).2.1, (digit_plain _).2.1,
      length_cons]
    omega

/-- Nothing is dropped where the head stays. -/
private theorem dropWhile_of_head {l : List Char} {p : Char → Bool}
    (h : ∀ c ∈ l.head?, p c = false) : l.dropWhile p = l := by
  cases l with
  | nil => rfl
  | cons c rest => rw [dropWhile_cons, h c rfl, if_neg Bool.false_ne_true]

/-- The written text of a code has no space to trim. -/
private theorem trimSpace_text (bytes : List Byte) :
    Texts.trimSpace (Hex.text bytes) = Hex.text bytes := by
  have hplain : ∀ c ∈ '0' :: 'x' :: encode bytes, Texts.isSpace c = false := by
    intro c hc
    rcases mem_cons.mp hc with rfl | hc
    · decide
    · rcases mem_cons.mp hc with rfl | hc
      · decide
      · obtain ⟨d, rfl⟩ := mem_encode hc
        exact (digit_plain d).1
  have hleft : ('0' :: 'x' :: encode bytes).dropWhile Texts.isSpace = '0' :: 'x' :: encode bytes :=
    dropWhile_of_head (fun c hc => hplain c (mem_of_mem_head? hc))
  have hright : ('0' :: 'x' :: encode bytes).reverse.dropWhile Texts.isSpace
      = ('0' :: 'x' :: encode bytes).reverse :=
    dropWhile_of_head (fun c hc => hplain c (mem_reverse.mp (mem_of_mem_head? hc)))
  unfold Texts.trimSpace Hex.text
  rw [String.toList_ofList, hleft, hright, reverse_reverse]

/-- **Code that is written is read back**, within the size limit. -/
theorem decodeBytecode_text {bytes : List Byte} (h : bytes.length ≤ maxMatcherBytecodeBytes) :
    decodeBytecode (Hex.text bytes) = .ok bytes := by
  have hdigits : trimHexPrefix (Texts.trimSpace (Hex.text bytes)).toList = encode bytes := by
    rw [trimSpace_text, Hex.text, String.toList_ofList]
    rfl
  have hplaceholder : ((encode bytes).any fun c => c == '_' || c == '$') = false := by
    rw [any_eq_false]
    intro c hc
    obtain ⟨d, rfl⟩ := mem_encode hc
    rw [(digit_plain d).2.2]
    exact Bool.false_ne_true
  unfold decodeBytecode
  simp only [hdigits, utf8Len_encode, hplaceholder, decode_encode]
  rw [failIf, if_neg (by omega), failIf, if_neg (by omega), failIf, if_neg Bool.false_ne_true]
  rfl

-- from here on the decoder is used through `decodeBytecode_text` only
attribute [irreducible] decodeBytecode

end Verify
