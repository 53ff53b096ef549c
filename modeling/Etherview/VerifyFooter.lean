import Etherview.VerifyRanges

/-! # Metadata footers

    A compiler puts a CBOR map behind its code, and behind the map its length in two
    bytes.  The matcher recognises such a footer in two places: `auxdataRangeEndingAt`
    of `internal/verify/engine_v2.go` looks for one that ends at a given position, and
    `decodeExclusiveMapFooter` of `internal/verify/matcher_cbor.go` for one at the end
    of a code.  The first decodes the values of the map into `[]byte`, the second keeps
    them raw.

    `IsFooter` says what a footer is without a decoder's target type.  The second
    recogniser finds every footer (`decodeExclusiveMapFooter_eq`); the first one finds
    the footers whose values all convert to bytes (`auxdataRangeEndingAt_eq_some`). -/

namespace Verify

open Hex Patch Transact List Option

/-! ## The CBOR mode -/

/-- The bounded CBOR mode of the matcher, a third-party decoder, as far as footers use
    it. `Unmarshal` into a map with text keys accepts what `members` does and keeps the
    values raw; `Unmarshal` of one item into `[]byte` accepts what `bytesLike` does. -/
structure CborMode where
  Item : Type
  /-- `Unmarshal` into `any`: the payload is one well-formed item within the bounds. -/
  decode : List Byte → Option Item
  /-- The members of a map with text keys; `null` has none. -/
  members : Item → Option (GoMap String Item)
  bytesLike : Item → Bool

namespace CborMode

/-- `Unmarshal` of a complete payload into a map of raw values. -/
def rawMap (mode : CborMode) (payload : List Byte) : Option (GoMap String mode.Item) :=
  (mode.decode payload).bind mode.members

/-- `Unmarshal` of a complete payload into a map of byte strings. -/
def bytesMap (mode : CborMode) (payload : List Byte) : Option (GoMap String mode.Item) :=
  (mode.rawMap payload).filter fun value => value.entries.all fun e => mode.bytesLike e.2

/-- The payload is one item of CBOR, completely. -/
def validCompleteCBOR (mode : CborMode) (payload : List Byte) : Bool := (mode.decode payload).isSome

theorem validCompleteCBOR_of_rawMap {mode : CborMode} {payload : List Byte}
    {value : GoMap String mode.Item} (h : mode.rawMap payload = some value) :
    mode.validCompleteCBOR payload = true := by
  obtain ⟨item, hitem, -⟩ := bind_eq_some_iff.mp h
  rw [validCompleteCBOR, hitem]
  rfl

end CborMode

/-! ## The two recognisers -/

/-- The languages that are verified. -/
inductive Language where
  | solidity
  | yul
  | geas
  | vyper
deriving DecidableEq, Repr

/-- `8 << 10`. -/
def maxCompilerFooterBytes : Nat := 8192

/-- The two bytes that end at a position, as a length. -/
def lengthEndingAt (code : List Byte) (stop : Nat) : Nat :=
  bigEndian (window code ⟨stop - 2, 2⟩)

/-- The start of the auxdata that ends at an offset. -/
def auxdataRangeEndingAt (mode : CborMode) (code : List Byte) (stop : Nat) (language : Language) :
    Option Nat :=
  if stop < 3 then none
  else
    let encodedLength := lengthEndingAt code stop
    match language with
    | .solidity | .yul =>
      if encodedLength = 0 ∨ encodedLength > maxCompilerFooterBytes
          ∨ encodedLength + 2 > stop then
        none
      else
        let start := stop - encodedLength - 2
        let payload := window code ⟨start, encodedLength⟩
        if ¬ mode.validCompleteCBOR payload then none
        else
          match mode.bytesMap payload with
          | none => none
          | some value => if value.entries = [] then none else some start
    | .geas | .vyper => none

/-- `decodedFooter`. -/
structure DecodedFooter where
  start : Nat
  payload : List Byte
  raw : List Byte
deriving DecidableEq, Repr

/-- The footer at the end of a code, whose payload is a map and nothing else. -/
def decodeExclusiveMapFooter (mode : CborMode) (bytecode : List Byte) : Option DecodedFooter :=
  if bytecode.length < 3 then none
  else
    let payloadLength := lengthEndingAt bytecode bytecode.length
    if payloadLength = 0 ∨ payloadLength > maxCompilerFooterBytes
        ∨ payloadLength + 2 > bytecode.length then
      none
    else
      let start := bytecode.length - payloadLength - 2
      let payload := window bytecode ⟨start, payloadLength⟩
      if ¬ mode.validCompleteCBOR payload then none
      else
        match mode.rawMap payload with
        | none => none
        | some value =>
          if value.entries = [] then none else some ⟨start, payload, bytecode.drop start⟩

/-! ## What a footer is -/

/-- Between `start` and `stop` lie a non-empty map with text keys and its length. -/
structure IsFooter (mode : CborMode) (code : List Byte) (start stop : Nat)
    (members : GoMap String mode.Item) : Prop where
  long : start + 2 < stop
  short : stop ≤ start + 2 + maxCompilerFooterBytes
  lengthEnding : lengthEndingAt code stop = stop - 2 - start
  decoded : mode.rawMap (window code ⟨start, stop - 2 - start⟩) = some members
  nonempty : members.entries ≠ []

section Recognisers

variable {mode : CborMode} {code : List Byte} {start stop : Nat}

variable {members : GoMap String mode.Item}

/-- Where a footer starts is determined by where it ends. -/
theorem IsFooter.start_eq
    (h : IsFooter mode code start stop members) : stop - lengthEndingAt code stop - 2 = start := by
  have := h.long
  rw [h.lengthEnding]
  omega

/-- One footer ends at a position. -/
theorem IsFooter.unique {start' : Nat} {members' : GoMap String mode.Item}
    (h : IsFooter mode code start stop members) (h' : IsFooter mode code start' stop members') :
    start = start' ∧ members = members' := by
  have hstart : start = start' := h.start_eq.symm.trans h'.start_eq
  subst hstart
  exact ⟨rfl, some.inj (h.decoded.symm.trans h'.decoded)⟩

/-- A footer depends only on the code in front of its end. -/
theorem isFooter_take :
    IsFooter mode (code.take stop) start stop members
      ↔ IsFooter mode code start stop members := by
  have hwindow : ∀ r : Region, r.stop ≤ stop → window (code.take stop) r = window code r :=
    fun r hr => window_take hr
  constructor
  · rintro ⟨hlong, hshort, hlength, hdecoded, hne⟩
    have hlast : (⟨stop - 2, 2⟩ : Region).stop ≤ stop := show stop - 2 + 2 ≤ stop by omega
    have hpayload : (⟨start, stop - 2 - start⟩ : Region).stop ≤ stop :=
      show start + (stop - 2 - start) ≤ stop by omega
    rw [lengthEndingAt, hwindow _ hlast] at hlength
    rw [hwindow _ hpayload] at hdecoded
    exact ⟨hlong, hshort, hlength, hdecoded, hne⟩
  · rintro ⟨hlong, hshort, hlength, hdecoded, hne⟩
    have hlast : (⟨stop - 2, 2⟩ : Region).stop ≤ stop := show stop - 2 + 2 ≤ stop by omega
    have hpayload : (⟨start, stop - 2 - start⟩ : Region).stop ≤ stop :=
      show start + (stop - 2 - start) ≤ stop by omega
    rw [lengthEndingAt, ← hwindow _ hlast] at hlength
    rw [← hwindow _ hpayload] at hdecoded
    exact ⟨hlong, hshort, hlength, hdecoded, hne⟩

/-- The bounds both recognisers check are those of a footer. -/
private theorem frame_eq {n : Nat}
    (hframe : ¬ (n = 0 ∨ n > maxCompilerFooterBytes ∨ n + 2 > stop)) :
    stop - n - 2 + 2 < stop ∧ stop ≤ stop - n - 2 + 2 + maxCompilerFooterBytes
      ∧ stop - 2 - (stop - n - 2) = n := by
  omega

/-- **What `auxdataRangeEndingAt` accepts**: a footer whose values all convert to bytes. -/
theorem auxdataRangeEndingAt_eq_some {language : Language}
    (hlanguage : language = .solidity ∨ language = .yul) :
    auxdataRangeEndingAt mode code stop language = some start ↔
      ∃ members, IsFooter mode code start stop members
        ∧ ∀ e ∈ members.entries, mode.bytesLike e.2 = true := by
  have hcommon : auxdataRangeEndingAt mode code stop language
      = auxdataRangeEndingAt mode code stop .solidity := by
    rcases hlanguage with rfl | rfl <;> rfl
  rw [hcommon]
  unfold auxdataRangeEndingAt
  simp only
  constructor
  · intro h
    split_ifs at h with hstop hframe hvalid
    cases hmap : mode.bytesMap (window code
        ⟨stop - lengthEndingAt code stop - 2, lengthEndingAt code stop⟩) with
    | none =>
      rw [hmap] at h
      cases h
    | some value =>
      rw [hmap] at h
      simp only at h
      split_ifs at h with hempty
      cases h
      obtain ⟨hlong, hshort, hlength⟩ := frame_eq hframe
      obtain ⟨hraw, hbytes⟩ := filter_eq_some_iff.mp hmap
      exact ⟨value, ⟨hlong, hshort, hlength.symm, by rw [hlength]; exact hraw, hempty⟩,
        fun e he => all_eq_true.mp hbytes e he⟩
  · rintro ⟨members, hfooter, hbytes⟩
    have hlong := hfooter.long
    have hshort := hfooter.short
    have hlength := hfooter.lengthEnding
    have hmap : mode.bytesMap (window code ⟨start, stop - 2 - start⟩) = some members :=
      filter_eq_some_iff.mpr ⟨hfooter.decoded, all_eq_true.mpr hbytes⟩
    rw [hfooter.start_eq, hlength, if_neg (by omega), if_neg (by omega),
      if_neg (not_not.mpr (CborMode.validCompleteCBOR_of_rawMap hfooter.decoded)), hmap]
    exact if_neg hfooter.nonempty

/-- **What `decodeExclusiveMapFooter` accepts**: every footer at the end of a code. -/
theorem decodeExclusiveMapFooter_eq {footer : DecodedFooter} :
    decodeExclusiveMapFooter mode code = some footer ↔
      (∃ members, IsFooter mode code footer.start code.length members)
        ∧ footer.payload = window code ⟨footer.start, code.length - 2 - footer.start⟩
        ∧ footer.raw = code.drop footer.start := by
  unfold decodeExclusiveMapFooter
  simp only
  constructor
  · intro h
    split_ifs at h with hstop hframe hvalid
    cases hmap : mode.rawMap (window code
        ⟨code.length - lengthEndingAt code code.length - 2,
          lengthEndingAt code code.length⟩) with
    | none =>
      rw [hmap] at h
      cases h
    | some value =>
      rw [hmap] at h
      simp only at h
      split_ifs at h with hempty
      cases h
      obtain ⟨hlong, hshort, hlength⟩ := frame_eq hframe
      refine ⟨⟨value, hlong, hshort, hlength.symm, by rw [hlength]; exact hmap, hempty⟩,
        ?_, rfl⟩
      rw [hlength]
  · rintro ⟨⟨members, hfooter⟩, hpayload, hraw⟩
    have hlong := hfooter.long
    have hshort := hfooter.short
    have hlength := hfooter.lengthEnding
    rw [hfooter.start_eq, hlength, if_neg (by omega), if_neg (by omega),
      if_neg (not_not.mpr (CborMode.validCompleteCBOR_of_rawMap hfooter.decoded)),
      hfooter.decoded]
    simp only
    rw [if_neg hfooter.nonempty, ← hpayload, ← hraw]

/-- **When the two recognisers agree**: when every value of the footer, if there is one,
    converts to bytes. -/
theorem footer_recognisers_agree_iff (hinside : stop ≤ code.length) :
    auxdataRangeEndingAt mode code stop .solidity
        = (decodeExclusiveMapFooter mode (code.take stop)).map DecodedFooter.start
      ↔ ∀ start members, IsFooter mode code start stop members →
        ∀ e ∈ members.entries, mode.bytesLike e.2 = true := by
  have hlength : (code.take stop).length = stop := by
    rw [length_take]
    omega
  have hraw : ∀ start, (decodeExclusiveMapFooter mode (code.take stop)).map DecodedFooter.start
      = some start ↔ ∃ members, IsFooter mode code start stop members := by
    intro start
    rw [map_eq_some_iff]
    constructor
    · rintro ⟨footer, hfooter, rfl⟩
      obtain ⟨⟨members, hmembers⟩, -⟩ := decodeExclusiveMapFooter_eq.mp hfooter
      rw [hlength, isFooter_take] at hmembers
      exact ⟨members, hmembers⟩
    · rintro ⟨members, hmembers⟩
      refine ⟨⟨start, window (code.take stop) ⟨start, stop - 2 - start⟩,
        (code.take stop).drop start⟩,
          decodeExclusiveMapFooter_eq.mpr ⟨⟨members, ?_⟩, ?_, rfl⟩, rfl⟩
      · rw [hlength, isFooter_take]
        exact hmembers
      · rw [hlength]
  constructor
  · intro heq start members hfooter e he
    have hsome := (hraw start).mpr ⟨members, hfooter⟩
    rw [← heq] at hsome
    obtain ⟨members', hfooter', hbytes⟩ := (auxdataRangeEndingAt_eq_some (.inl rfl)).mp hsome
    obtain ⟨-, rfl⟩ := hfooter'.unique hfooter
    exact hbytes e he
  · intro hall
    refine ext (fun start => ?_)
    rw [hraw, auxdataRangeEndingAt_eq_some (.inl rfl)]
    constructor
    · rintro ⟨members, hfooter, -⟩
      exact ⟨members, hfooter⟩
    · rintro ⟨members, hfooter⟩
      exact ⟨members, hfooter, hall start members hfooter⟩

end Recognisers

/-! ## Solidity metadata -/

/-- The items of Solidity metadata. -/
inductive MetadataItem where
  | bytes (value : List Byte)
  | text (value : String)
  | boolean (value : Bool)
  | map (members : List (String × MetadataItem))

namespace MetadataItem

/-- The characters of an ASCII text. -/
def ascii (bytes : List Byte) : String := String.ofList (bytes.map fun b => Char.ofNat b.val)

/-- A key or value of the metadata: a byte string or a text shorter than 24 bytes, or a
    truth value. -/
def scalar : List Byte → Option (MetadataItem × List Byte)
  | [] => none
  | head :: rest =>
    if head.val / 32 = 2 ∧ head.val % 32 < 24 ∧ head.val % 32 ≤ rest.length then
      some (.bytes (rest.take (head.val % 32)), rest.drop (head.val % 32))
    else if head.val / 32 = 3 ∧ head.val % 32 < 24 ∧ head.val % 32 ≤ rest.length then
      some (.text (ascii (rest.take (head.val % 32))), rest.drop (head.val % 32))
    else if head.val = 244 then some (.boolean false, rest)
    else if head.val = 245 then some (.boolean true, rest)
    else none

/-- A number of members. -/
def pairs : Nat → List Byte → Option (List (String × MetadataItem) × List Byte)
  | 0, rest => some ([], rest)
  | count + 1, input =>
    match scalar input with
    | some (.text key, rest) => do
        let (value, rest) ← scalar rest
        let (others, rest) ← pairs count rest
        return ((key, value) :: others, rest)
    | _ => none

/-- A payload that is one map of scalars. -/
def decode : List Byte → Option MetadataItem
  | [] => none
  | head :: rest =>
    if head.val / 32 = 5 ∧ head.val % 32 < 24 then
      match pairs (head.val % 32) rest with
      | some (members, []) => some (.map members)
      | _ => none
    else none

/-- The members of a map with distinct keys. -/
def members : MetadataItem → Option (GoMap String MetadataItem)
  | .map members => if h : (members.map Prod.fst).Nodup then some ⟨members, h⟩ else none
  | _ => none

/-- A byte string. -/
def bytesLike : MetadataItem → Bool
  | .bytes _ => true
  | _ => false

end MetadataItem

/-- The CBOR mode on Solidity metadata. -/
def metadataMode : CborMode where
  Item := MetadataItem
  decode := MetadataItem.decode
  members := MetadataItem.members
  bytesLike := MetadataItem.bytesLike

/-- A stop and the metadata `{"solc": 0x08151d}`. -/
def versionedCode : List Byte := bytesOf [0, 161, 100, 115, 111, 108, 99, 67, 8, 21, 29, 0, 10]

/-- A stop and the metadata `{"experimental": true}`. -/
def experimentalCode : List Byte :=
  bytesOf [0, 161, 108, 101, 120, 112, 101, 114, 105, 109, 101, 110, 116, 97, 108, 245, 0, 15]

/-- A footer that holds a version as bytes is found by both, at the same start. -/
theorem footer_recognisers_agree_version : 13 ≤ versionedCode.length
      ∧ auxdataRangeEndingAt metadataMode versionedCode 13 .solidity = some 1
      ∧ (decodeExclusiveMapFooter metadataMode (versionedCode.take 13)).map DecodedFooter.start
        = some 1 := by
  have hinside : 13 ≤ versionedCode.length := by decide
  have hfound : auxdataRangeEndingAt metadataMode versionedCode 13 .solidity = some 1 := by
    decide +kernel
  obtain ⟨members, hfooter, hbytes⟩ := (auxdataRangeEndingAt_eq_some (.inl rfl)).mp hfound
  have hagree := (footer_recognisers_agree_iff hinside).mpr (fun start members' hfooter' => by
    obtain ⟨-, rfl⟩ := hfooter.unique hfooter'
    exact hbytes)
  exact ⟨hinside, hfound, hagree.symm.trans hfound⟩

/-- **The recognisers differ on experimental code**: the exclusive decoder finds the
    footer, the search for auxdata does not. -/
theorem footer_recognisers_differ : 18 ≤ experimentalCode.length
      ∧ auxdataRangeEndingAt metadataMode experimentalCode 18 .solidity = none
      ∧ (decodeExclusiveMapFooter metadataMode (experimentalCode.take 18)).map DecodedFooter.start
        = some 1 := by
  decide +kernel

end Verify
