import Mathlib

/-! # Hexadecimal text

    Bytes, their two-digit text and the text read back.  Digits of both cases are read,
    lower-case digits are written. -/

namespace Hex

open List

/-- A byte. -/
abbrev Byte := Fin 256

instance byteNeZero : @NeZero Nat Zero.ofOfNat0 256 := ⟨Nat.succ_ne_zero 255⟩

/-- The bytes of a list of numbers below 256. -/
def bytesOf (values : List Nat) : List Byte := values.map (Fin.ofNat 256)

/-- The value of a digit of either case. -/
def digitValue (c : Char) : Option (Fin 16) :=
  if '0' ≤ c ∧ c ≤ '9' then some (Fin.ofNat 16 (c.toNat - 48))
  else if 'a' ≤ c ∧ c ≤ 'f' then some (Fin.ofNat 16 (c.toNat - 87))
  else if 'A' ≤ c ∧ c ≤ 'F' then some (Fin.ofNat 16 (c.toNat - 55))
  else none

/-- The lower-case digit of a value. -/
def digitChar (d : Fin 16) : Char := Nat.digitChar d.val

theorem digitValue_digitChar (d : Fin 16) : digitValue (digitChar d) = some d := by
  revert d
  decide

/-- The upper half of a byte. -/
def high (b : Byte) : Fin 16 := ⟨b.val / 16, by have := b.isLt; omega⟩

/-- The lower half of a byte. -/
def low (b : Byte) : Fin 16 := ⟨b.val % 16, Nat.mod_lt _ (Nat.succ_pos _)⟩

/-- A byte from its halves. -/
def join (x y : Fin 16) : Byte := ⟨16 * x.val + y.val, by have := x.isLt; have := y.isLt; omega⟩

theorem join_high_low (b : Byte) : join (high b) (low b) = b := Fin.ext (Nat.div_add_mod b.val 16)

/-- The digits of a byte string. -/
def encode : List Byte → List Char
  | [] => []
  | b :: rest => digitChar (high b) :: digitChar (low b) :: encode rest

/-- The byte string of an even number of digits. -/
def decode : List Char → Option (List Byte)
  | [] => some []
  | [_] => none
  | a :: b :: rest => do
      let x ← digitValue a
      let y ← digitValue b
      let bytes ← decode rest
      some (join x y :: bytes)

/-- What is written is read back. -/
@[simp] theorem decode_encode (bytes : List Byte) : decode (encode bytes) = some bytes := by
  induction bytes with
  | nil => rfl
  | cons b rest ih =>
    simp only [encode, decode, digitValue_digitChar, ih, Option.bind_eq_bind,
      Option.bind_some, join_high_low]

/-- Every character that is written is a digit. -/
theorem mem_encode {bytes : List Byte} {c : Char} (h : c ∈ encode bytes) :
    ∃ d, c = digitChar d := by
  induction bytes with
  | nil => cases h
  | cons b rest ih =>
    rcases mem_cons.mp h with rfl | h
    · exact ⟨_, rfl⟩
    · rcases mem_cons.mp h with rfl | h
      · exact ⟨_, rfl⟩
      · exact ih h

/-- The text of a byte string behind the `0x` marker. -/
def text (bytes : List Byte) : String := String.ofList ('0' :: 'x' :: encode bytes)

/-- The byte string behind the `0x` marker of a text. -/
def parse (value : String) : Option (List Byte) := match value.toList with
  | '0' :: 'x' :: digits => decode digits
  | _ => none

/-- `strings.TrimPrefix(value, "0x")`. -/
def trimHexPrefix : List Char → List Char
  | '0' :: 'x' :: rest => rest
  | digits => digits

section

variable (bytes : List Byte)

@[simp] theorem parse_text : parse (text bytes) = some bytes := by
  rw [parse, text, String.toList_ofList]
  exact decode_encode bytes

/-- The number that bytes denote, most significant first. -/
def bigEndian (bytes : List Byte) : Nat := bytes.foldl (fun n b => 256 * n + b.val) 0

/-- A big-endian number by its digits. -/
theorem bigEndian_eq_ofDigits : bigEndian bytes = Nat.ofDigits 256 (bytes.reverse.map Fin.val) := by
  rw [bigEndian, Nat.ofDigits_eq_foldr, foldl_eq_foldr_reverse, foldr_map]
  simp only [Nat.cast_id, add_comm]

/-- Bytes are digits of base 256. -/
theorem digits_lt : ∀ d ∈ bytes.reverse.map Fin.val, d < 256 := by
  intro d hd
  obtain ⟨b, -, rfl⟩ := mem_map.mp hd
  exact b.isLt

end

/-- A big-endian number in two parts. -/
theorem bigEndian_append (a b : List Byte) :
    bigEndian (a ++ b) = bigEndian a * 256 ^ b.length + bigEndian b := by
  rw [bigEndian_eq_ofDigits, reverse_append, map_append, Nat.ofDigits_append,
    ← bigEndian_eq_ofDigits, ← bigEndian_eq_ofDigits, length_map, length_reverse,
    add_comm, mul_comm]

/-- The first byte of a big-endian number. -/
theorem bigEndian_cons (b : Byte) (rest : List Byte) :
    bigEndian (b :: rest) = b.val * 256 ^ rest.length + bigEndian rest := by
  have hhead : bigEndian [b] = b.val := zero_add _
  rw [← singleton_append, bigEndian_append, hhead]

/-- A big-endian number is bounded by its size. -/
theorem bigEndian_lt (bytes : List Byte) : bigEndian bytes < 256 ^ bytes.length := by
  have hlt := Nat.ofDigits_lt_base_pow_length (by decide) (digits_lt bytes)
  rwa [← bigEndian_eq_ofDigits, length_map, length_reverse] at hlt

/-- A big-endian number is zero iff its bytes are. -/
theorem bigEndian_eq_zero {bytes : List Byte} :
    bigEndian bytes = 0 ↔ ∀ b ∈ bytes, b.val = 0 := by
  induction bytes with
  | nil => exact ⟨fun _ b hb => (by cases hb), fun _ => rfl⟩
  | cons b rest ih =>
    have hpow : 0 < 256 ^ rest.length := Nat.pow_pos (by decide)
    rw [bigEndian_cons, Nat.add_eq_zero_iff, ih, forall_mem_cons, Nat.mul_eq_zero]
    exact and_congr_left fun _ => or_iff_left hpow.ne'

/-- Byte strings of one length that denote the same number are the same. -/
theorem bigEndian_injective {a b : List Byte} (hlength : a.length = b.length)
    (h : bigEndian a = bigEndian b) : a = b := by
  rw [bigEndian_eq_ofDigits, bigEndian_eq_ofDigits] at h
  have hdigits := Nat.ofDigits_inj_of_len_eq (by decide) (by simp [hlength]) (digits_lt a)
    (digits_lt b) h
  exact reverse_injective (map_injective_iff.mpr Fin.val_injective hdigits)

/-- The number that digits denote, most significant first. -/
def number : List Char → Option Nat :=
  List.foldlM (fun n c => (digitValue c).map fun d => 16 * n + d.val) 0

end Hex
