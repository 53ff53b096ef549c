import Etherview.Evm
import Etherview.VerifyRanges

/-! # The runtime code of a Yul object

    `deriveYulRuntime` of `internal/verify/candidate_v2.go`.  Older compilers give only the
    creation code of a Yul object.  The function accepts creation code that is the static
    wrapper of the compiler, which copies the bytes behind it into memory and returns them,
    and takes these bytes as the runtime code.

    The parser accepts exactly the wrappers whose pushed size and offset are those of the
    bytes behind the wrapper and that copy them to the start of the memory
    (`deriveYulRuntime_eq_ok`), whatever the widths of the pushes.  A wrapper that copies
    the bytes elsewhere and returns them from there returns them as well
    (`wrapper_returns`), but it is rejected. -/

namespace Verify

open Hex Patch Transact Evm List

/-! ## The parser -/

/-- `readYulWrapperPush`: the value and the position behind the push.  Of a wide push all
    but the last eight bytes are zero, so the value has 64 bits. -/
def readYulWrapperPush (code : List Byte) (cursor : Nat) : Option (Nat × Nat) :=
  match code[cursor]? with
  | none => none
  | some opcode =>
    if opcode.val < 0x60 ∨ opcode.val > 0x7f then none
    else
      let width := opcode.val - 0x5f
      if width > code.length - (cursor + 1) then none
      else
        let leading := width - 8
        if (window code ⟨cursor + 1, leading⟩).any (fun b => b.val ≠ 0) then none
        else some (bigEndian (window code ⟨cursor + 1 + leading, width - leading⟩),
          cursor + 1 + width)

/-- `consumeYulWrapperOpcode`: the position behind an opcode that is there. -/
def consumeYulWrapperOpcode (code : List Byte) (cursor : Nat) (opcode : Byte) : Option Nat :=
  if code[cursor]? = some opcode then some (cursor + 1) else none

/-- The checks of `deriveYulRuntime`, in their order. -/
def yulRuntime (maxInitCodeSize : Nat) (creation : List Byte) (links : LinkReferences) :
    Option (List Byte) := do
  guard (¬ (creation = [] ∨ creation.length > maxInitCodeSize ∨ links.entries ≠ []))
  let (runtimeSize, cursor) ← readYulWrapperPush creation 0
  guard (¬ (runtimeSize = 0 ∨ runtimeSize > maxMatcherBytecodeBytes))
  let cursor ← consumeYulWrapperOpcode creation cursor dup1
  let (runtimeOffset, cursor) ← readYulWrapperPush creation cursor
  let (destination, cursor) ← readYulWrapperPush creation cursor
  guard (destination = 0)
  let cursor ← consumeYulWrapperOpcode creation cursor codecopy
  let cursor ← consumeYulWrapperOpcode creation cursor dup1
  let (returnOffset, cursor) ← readYulWrapperPush creation cursor
  guard (returnOffset = 0)
  let cursor ← consumeYulWrapperOpcode creation cursor ret
  let cursor ← consumeYulWrapperOpcode creation cursor pop
  let cursor ← consumeYulWrapperOpcode creation cursor invalid
  -- the runtime code is all that follows the wrapper
  guard (runtimeOffset = cursor ∧ runtimeSize = creation.length - cursor)
  return creation.drop cursor

/-- `deriveYulRuntime`; the bound `maxInitCodeSize` is a constant of a library. -/
def deriveYulRuntime (maxInitCodeSize : Nat) (creation : List Byte) (links : LinkReferences) :
    Except VerifyError (List Byte) :=
  match yulRuntime maxInitCodeSize creation links with
  | some runtime => .ok runtime
  | none => .error .compiledCodeMalformed

/-! ## The wrapper -/

/-- The bytes of a push of one to 32 bytes. -/
def Immediate (bytes : List Byte) : Prop := 1 ≤ bytes.length ∧ bytes.length ≤ 32

/-- The wrapper in front of the runtime code. -/
def yulWrapper (size offset destination returnOffset : List Byte) : List Byte :=
  push size ++ dup1 :: (push offset ++ push destination ++ codecopy :: dup1 ::
    (push returnOffset ++ [ret, pop, invalid]))

/-- The pushed size and offset of a wrapper designate the runtime code behind it. -/
structure Designates (size offset destination returnOffset runtime : List Byte) : Prop where
  size_immediate : Immediate size
  offset_immediate : Immediate offset
  destination_immediate : Immediate destination
  return_immediate : Immediate returnOffset
  size_eq : bigEndian size = runtime.length
  offset_eq : bigEndian offset = (yulWrapper size offset destination returnOffset).length

/-- The wrapper copies to the start of the memory and returns from there. -/
def AtStart (destination returnOffset : List Byte) : Prop :=
  bigEndian destination = 0 ∧ bigEndian returnOffset = 0

instance (destination returnOffset : List Byte) : Decidable (AtStart destination returnOffset) :=
  inferInstanceAs (Decidable (_ ∧ _))

section Parser

variable {code : List Byte} {cursor : Nat}

/-- A number in more than eight bytes has 64 bits iff it starts with zeros. -/
private theorem leading_zeros {lead low : List Byte} (hshort : low.length ≤ 8)
    (hlow : lead ≠ [] → low.length = 8) :
    bigEndian (lead ++ low) < 2 ^ 64 ↔ ∀ b ∈ lead, b.val = 0 := by
  have hlt := bigEndian_lt low
  have hpow : 256 ^ low.length ≤ 256 ^ 8 := Nat.pow_le_pow_right (by decide) hshort
  rw [← bigEndian_eq_zero, bigEndian_append]
  by_cases hlead : lead = []
  · subst hlead
    refine ⟨fun _ => rfl, fun _ => ?_⟩
    rw [show bigEndian ([] : List Byte) = 0 from rfl]
    omega
  · rw [hlow hlead] at hlt ⊢
    omega

variable {immediate rest : List Byte}

private theorem window_immediate (h : code.drop cursor = immediate ++ rest) {start n : Nat}
    (hin : start + n ≤ immediate.length) :
    window code ⟨cursor + start, n⟩ = (immediate.drop start).take n := by
  show (code.drop (cursor + start)).take n = _
  rw [← drop_drop, h, drop_append_of_le_length (by omega),
    take_append_of_le_length (by rw [length_drop]; omega)]

/-- Reading a push: all values of 64 bits are read. -/
theorem readYulWrapperPush_push
    (h : code.drop cursor = push immediate ++ rest) (himm : Immediate immediate) :
    readYulWrapperPush code cursor = if bigEndian immediate < 2 ^ 64 then
          some (bigEndian immediate, cursor + (push immediate).length)
        else none := by
  obtain ⟨hpos, hwide⟩ := himm
  obtain ⟨hop, hdrop⟩ := byte_of_drop h
  have hdrop : code.drop (cursor + 1) = immediate ++ rest := hdrop
  have hval := val_push hwide
  have hspace : immediate.length ≤ code.length - (cursor + 1) := by
    have hlen := congrArg List.length hdrop
    rw [length_drop, length_append] at hlen
    omega
  -- the source reads the last eight bytes and wants zeros in front of them
  have hlead : window code ⟨cursor + 1, immediate.length - 8⟩
      = immediate.take (immediate.length - 8) :=
    window_immediate hdrop (show 0 + (immediate.length - 8) ≤ immediate.length by omega)
  have hlow : window code ⟨cursor + 1 + (immediate.length - 8),
      immediate.length - (immediate.length - 8)⟩ = immediate.drop (immediate.length - 8) := by
    rw [window_immediate hdrop (by omega), take_of_length_le]
    rw [length_drop]
  have hshort : (immediate.drop (immediate.length - 8)).length ≤ 8 := by
    rw [length_drop]
    omega
  have hlong : immediate.take (immediate.length - 8) ≠ [] →
      (immediate.drop (immediate.length - 8)).length = 8 := by
    intro hne
    have hpositive : immediate.length - 8 ≠ 0 := by
      intro hzero
      rw [hzero] at hne
      exact hne rfl
    rw [length_drop]
    omega
  -- the value has 64 bits iff the bytes in front are zeros
  have hzeros := leading_zeros hshort hlong
  rw [take_append_drop] at hzeros
  unfold readYulWrapperPush
  rw [hop]
  simp only [hval, Nat.add_sub_cancel_left]
  rw [if_neg (by omega), if_neg (by omega), hlead, hlow]
  by_cases hsmall : bigEndian immediate < 2 ^ 64
  · have hall := hzeros.mp hsmall
    have hsame : bigEndian immediate = bigEndian (immediate.drop (immediate.length - 8)) := by
      conv_lhs => rw [← take_append_drop (immediate.length - 8) immediate]
      rw [bigEndian_append, bigEndian_eq_zero.mpr hall, zero_mul, zero_add]
    rw [if_pos hsmall, if_neg, hsame, length_push, ← add_assoc]
    intro hany
    obtain ⟨b, hb, hne⟩ := any_eq_true.mp hany
    exact (of_decide_eq_true hne) (hall b hb)
  · rw [if_neg hsmall, if_pos]
    by_contra hnone
    refine hsmall (hzeros.mpr (fun b hb => ?_))
    by_contra hne
    exact hnone (any_eq_true.mpr ⟨b, hb, decide_eq_true hne⟩)

theorem push_of_readYulWrapperPush {result : Nat × Nat}
    (h : readYulWrapperPush code cursor = some result) :
    ∃ immediate rest, code.drop cursor = push immediate ++ rest ∧ Immediate immediate := by
  unfold readYulWrapperPush at h
  cases hop : code[cursor]? with
  | none =>
    rw [hop] at h
    cases h
  | some opcode =>
    rw [hop] at h
    simp only at h
    split_ifs at h with hrange hfit hzeros
    have hin : cursor < code.length := (List.getElem?_eq_some_iff.mp hop).1
    have hlength : ((code.drop (cursor + 1)).take (opcode.val - 0x5f)).length
        = opcode.val - 0x5f := by
      rw [length_take, length_drop]
      omega
    refine ⟨(code.drop (cursor + 1)).take (opcode.val - 0x5f),
      (code.drop (cursor + 1)).drop (opcode.val - 0x5f), ?_, ?_⟩
    · have hopcode : Fin.ofNat 256 (0x5f + (opcode.val - 0x5f)) = opcode := by
        refine Fin.ext ?_
        show (0x5f + (opcode.val - 0x5f)) % 256 = opcode.val
        omega
      rw [push, hlength, hopcode, cons_append, take_append_drop, drop_eq_getElem_cons hin]
      rw [(List.getElem?_eq_some_iff.mp hop).2]
    · unfold Immediate
      omega

/-- **What `readYulWrapperPush` reads**: a push whose value has 64 bits. -/
theorem readYulWrapperPush_eq_some {value next : Nat} :
    readYulWrapperPush code cursor = some (value, next) ↔
      ∃ immediate rest, code.drop cursor = push immediate ++ rest ∧ Immediate immediate
        ∧ bigEndian immediate = value ∧ value < 2 ^ 64
        ∧ next = cursor + (push immediate).length ∧ code.drop next = rest := by
  constructor
  · intro h
    obtain ⟨immediate, rest, hdrop, himm⟩ := push_of_readYulWrapperPush h
    rw [readYulWrapperPush_push hdrop himm] at h
    split_ifs at h with hsmall
    obtain ⟨rfl, rfl⟩ := Prod.mk.inj (Option.some.inj h)
    exact ⟨immediate, rest, hdrop, himm, rfl, hsmall, rfl, (bytes_of_drop hdrop).2⟩
  · rintro ⟨immediate, rest, hdrop, himm, rfl, hsmall, rfl, -⟩
    rw [readYulWrapperPush_push hdrop himm, if_pos hsmall]

theorem consumeYulWrapperOpcode_eq_some {opcode : Byte} {next : Nat} :
    consumeYulWrapperOpcode code cursor opcode = some next ↔
      ∃ rest, code.drop cursor = opcode :: rest ∧ next = cursor + 1
        ∧ code.drop next = rest := by
  unfold consumeYulWrapperOpcode
  constructor
  · intro h
    split_ifs at h with hop
    cases h
    obtain ⟨hin, hget⟩ := List.getElem?_eq_some_iff.mp hop
    exact ⟨_, by rw [drop_eq_getElem_cons hin, hget], rfl, rfl⟩
  · rintro ⟨rest, hdrop, rfl, -⟩
    rw [if_pos (byte_of_drop hdrop).1]

private theorem guard_bind_eq_some {α : Type} {p : Prop} [Decidable p] {x : Option α} {a : α} :
    (guard p >>= fun _ => x) = some a ↔ p ∧ x = some a := by
  by_cases hp : p <;> simp [guard, hp]

end Parser

section Wrapper

variable {maxInitCodeSize : Nat} {creation runtime : List Byte} {links : LinkReferences}
  {size offset destination returnOffset : List Byte}

theorem length_yulWrapper : (yulWrapper size offset destination returnOffset).length
    = (push size).length + 1 + (push offset).length + (push destination).length + 1 + 1
      + (push returnOffset).length + 1 + 1 + 1 := by
  unfold yulWrapper
  simp only [length_append, length_cons, length_nil]
  omega

/-- The wrapper with the runtime code behind it, piece by piece. -/
theorem yulWrapper_append : yulWrapper size offset destination returnOffset ++ runtime
    = push size ++ dup1 :: (push offset ++ (push destination ++ codecopy :: dup1 ::
      (push returnOffset ++ ret :: pop :: invalid :: runtime))) := by
  unfold yulWrapper
  simp only [append_assoc, cons_append, nil_append]

/-- What passes the checks is a wrapper in front of the runtime code it designates. -/
theorem wrapper_of_yulRuntime (h : yulRuntime maxInitCodeSize creation links = some runtime) :
    links.entries = [] ∧ creation.length ≤ maxInitCodeSize
      ∧ runtime ≠ [] ∧ runtime.length ≤ maxMatcherBytecodeBytes
      ∧ ∃ size offset destination returnOffset,
        creation = yulWrapper size offset destination returnOffset ++ runtime
          ∧ Designates size offset destination returnOffset runtime
          ∧ AtStart destination returnOffset := by
  obtain ⟨hbounds, h⟩ := guard_bind_eq_some.mp h
  obtain ⟨⟨runtimeSize, c1⟩, hsize, h⟩ := Option.bind_eq_some_iff.mp h
  obtain ⟨hnonzero, h⟩ := guard_bind_eq_some.mp h
  obtain ⟨c2, hdup, h⟩ := Option.bind_eq_some_iff.mp h
  obtain ⟨⟨runtimeOffset, c3⟩, hoffset, h⟩ := Option.bind_eq_some_iff.mp h
  obtain ⟨⟨dest, c4⟩, hdest, h⟩ := Option.bind_eq_some_iff.mp h
  obtain ⟨hdestzero, h⟩ := guard_bind_eq_some.mp h
  obtain ⟨c5, hcopy, h⟩ := Option.bind_eq_some_iff.mp h
  obtain ⟨c6, hdup', h⟩ := Option.bind_eq_some_iff.mp h
  obtain ⟨⟨retOffset, c7⟩, hret, h⟩ := Option.bind_eq_some_iff.mp h
  obtain ⟨hretzero, h⟩ := guard_bind_eq_some.mp h
  obtain ⟨c8, hreturn, h⟩ := Option.bind_eq_some_iff.mp h
  obtain ⟨c9, hpop, h⟩ := Option.bind_eq_some_iff.mp h
  obtain ⟨c10, hinvalid, h⟩ := Option.bind_eq_some_iff.mp h
  obtain ⟨⟨hoffsetplace, hsizeplace⟩, h⟩ := guard_bind_eq_some.mp h
  have hruntime : creation.drop c10 = runtime := Option.some.inj h
  -- every read leaves the code behind it
  obtain ⟨size, _, hd1, himm1, hv1, -, hc1, rfl⟩ := readYulWrapperPush_eq_some.mp hsize
  obtain ⟨_, hd2, hc2, rfl⟩ := consumeYulWrapperOpcode_eq_some.mp hdup
  obtain ⟨offset, _, hd3, himm3, hv3, -, hc3, rfl⟩ := readYulWrapperPush_eq_some.mp hoffset
  obtain ⟨destination, _, hd4, himm4, hv4, -, hc4, rfl⟩ := readYulWrapperPush_eq_some.mp hdest
  obtain ⟨_, hd5, hc5, rfl⟩ := consumeYulWrapperOpcode_eq_some.mp hcopy
  obtain ⟨_, hd6, hc6, rfl⟩ := consumeYulWrapperOpcode_eq_some.mp hdup'
  obtain ⟨returnOffset, _, hd7, himm7, hv7, -, hc7, rfl⟩ := readYulWrapperPush_eq_some.mp hret
  obtain ⟨_, hd8, hc8, rfl⟩ := consumeYulWrapperOpcode_eq_some.mp hreturn
  obtain ⟨_, hd9, hc9, rfl⟩ := consumeYulWrapperOpcode_eq_some.mp hpop
  obtain ⟨_, hd10, hc10, rfl⟩ := consumeYulWrapperOpcode_eq_some.mp hinvalid
  rw [hd2, hd3, hd4, hd5, hd6, hd7, hd8, hd9, hd10, hruntime, ← yulWrapper_append,
    drop_zero] at hd1
  have hlength : runtime.length = runtimeSize := by
    rw [← hruntime, length_drop, hsizeplace]
  have hcursor : c10 = (yulWrapper size offset destination returnOffset).length := by
    rw [length_yulWrapper]
    omega
  rw [not_or, not_or, not_not] at hbounds
  refine ⟨hbounds.2.2, not_lt.mp hbounds.2.1, ?_, ?_, size, offset, destination, returnOffset,
    hd1, ⟨himm1, himm3, himm4, himm7, ?_, ?_⟩, hv4.trans hdestzero, hv7.trans hretzero⟩
  · intro hnil
    rw [hnil] at hlength
    exact hnonzero (.inl hlength.symm)
  · rw [hlength]
    omega
  · rw [hv1, hlength]
  · rw [hv3, hoffsetplace, hcursor]

/-- A wrapper that designates the code behind it and copies it to the start of the memory
    passes the checks. -/
theorem yulRuntime_of_wrapper (hlinks : links.entries = [])
    (hlimit : (yulWrapper size offset destination returnOffset ++ runtime).length
      ≤ maxInitCodeSize)
    (hne : runtime ≠ []) (hshort : runtime.length ≤ maxMatcherBytecodeBytes)
    (h : Designates size offset destination returnOffset runtime)
    (hstart : AtStart destination returnOffset) :
    yulRuntime maxInitCodeSize (yulWrapper size offset destination returnOffset ++ runtime) links
      = some runtime := by
  have hlength := @length_yulWrapper size offset destination returnOffset
  have hpos : 0 < runtime.length := length_pos_iff.mpr hne
  have hsmall : (yulWrapper size offset destination returnOffset).length < 2 ^ 64 := by
    have h1 := h.size_immediate.2
    have h2 := h.offset_immediate.2
    have h3 := h.destination_immediate.2
    have h4 := h.return_immediate.2
    rw [hlength]
    simp only [length_push]
    omega
  have hlimitsmall : maxMatcherBytecodeBytes < 2 ^ 64 := by decide
  generalize hcode : yulWrapper size offset destination returnOffset ++ runtime = code at hlimit ⊢
  have hcodelength : code.length
      = (yulWrapper size offset destination returnOffset).length + runtime.length := by
    rw [← hcode, length_append]
  -- the code behind every piece
  have hd1 : code.drop 0 = push size ++ _ := hcode.symm.trans yulWrapper_append
  have hd2 := (bytes_of_drop hd1).2
  have hd3 := (byte_of_drop hd2).2
  have hd4 := (bytes_of_drop hd3).2
  have hd5 := (bytes_of_drop hd4).2
  have hd6 := (byte_of_drop hd5).2
  have hd7 := (byte_of_drop hd6).2
  have hd8 := (bytes_of_drop hd7).2
  have hd9 := (byte_of_drop hd8).2
  have hd10 := (byte_of_drop hd9).2
  have hd11 := (byte_of_drop hd10).2
  -- the pushes
  have hsize := readYulWrapperPush_eq_some.mpr
    ⟨size, _, hd1, h.size_immediate, h.size_eq, by omega, rfl, hd2⟩
  have hoffset := readYulWrapperPush_eq_some.mpr
    ⟨offset, _, hd3, h.offset_immediate, h.offset_eq, hsmall, rfl, hd4⟩
  have hdestination := readYulWrapperPush_eq_some.mpr
    ⟨destination, _, hd4, h.destination_immediate, hstart.1, by decide, rfl, hd5⟩
  have hreturn := readYulWrapperPush_eq_some.mpr
    ⟨returnOffset, _, hd7, h.return_immediate, hstart.2, by decide, rfl, hd8⟩
  refine guard_bind_eq_some.mpr ⟨?_, ?_⟩
  · rw [not_or, not_or, not_not]
    refine ⟨fun hnil => ?_, not_lt.mpr hlimit, hlinks⟩
    rw [hnil, length_nil] at hcodelength
    omega
  refine Option.bind_eq_some_iff.mpr ⟨_, hsize, guard_bind_eq_some.mpr ⟨by omega, ?_⟩⟩
  refine Option.bind_eq_some_iff.mpr
    ⟨_, consumeYulWrapperOpcode_eq_some.mpr ⟨_, hd2, rfl, hd3⟩, ?_⟩
  refine Option.bind_eq_some_iff.mpr ⟨_, hoffset, ?_⟩
  refine Option.bind_eq_some_iff.mpr ⟨_, hdestination, guard_bind_eq_some.mpr ⟨rfl, ?_⟩⟩
  refine Option.bind_eq_some_iff.mpr
    ⟨_, consumeYulWrapperOpcode_eq_some.mpr ⟨_, hd5, rfl, hd6⟩, ?_⟩
  refine Option.bind_eq_some_iff.mpr
    ⟨_, consumeYulWrapperOpcode_eq_some.mpr ⟨_, hd6, rfl, hd7⟩, ?_⟩
  refine Option.bind_eq_some_iff.mpr ⟨_, hreturn, guard_bind_eq_some.mpr ⟨rfl, ?_⟩⟩
  refine Option.bind_eq_some_iff.mpr
    ⟨_, consumeYulWrapperOpcode_eq_some.mpr ⟨_, hd8, rfl, hd9⟩, ?_⟩
  refine Option.bind_eq_some_iff.mpr
    ⟨_, consumeYulWrapperOpcode_eq_some.mpr ⟨_, hd9, rfl, hd10⟩, ?_⟩
  refine Option.bind_eq_some_iff.mpr
    ⟨_, consumeYulWrapperOpcode_eq_some.mpr ⟨_, hd10, rfl, hd11⟩, ?_⟩
  refine guard_bind_eq_some.mpr ⟨⟨?_, ?_⟩, congrArg some hd11⟩
  · rw [hlength]
    omega
  · omega

/-- **What `deriveYulRuntime` accepts**: code within the bounds that is a wrapper in front
    of the runtime code it designates and copies to the start of the memory. -/
theorem deriveYulRuntime_eq_ok : deriveYulRuntime maxInitCodeSize creation links = .ok runtime ↔
      links.entries = [] ∧ creation.length ≤ maxInitCodeSize
        ∧ runtime ≠ [] ∧ runtime.length ≤ maxMatcherBytecodeBytes
        ∧ ∃ size offset destination returnOffset,
          creation = yulWrapper size offset destination returnOffset ++ runtime
            ∧ Designates size offset destination returnOffset runtime
            ∧ AtStart destination returnOffset := by
  have hderive : deriveYulRuntime maxInitCodeSize creation links = .ok runtime ↔
      yulRuntime maxInitCodeSize creation links = some runtime := by
    unfold deriveYulRuntime
    cases yulRuntime maxInitCodeSize creation links with
    | none => exact ⟨fun h => (by cases h), fun h => (by cases h)⟩
    | some found =>
      exact ⟨fun h => congrArg some (Except.ok.inj h), fun h => congrArg _ (Option.some.inj h)⟩
  rw [hderive]
  constructor
  · exact wrapper_of_yulRuntime
  · rintro ⟨hlinks, hlimit, hne, hshort, size, offset, destination,
      returnOffset, rfl, h, hstart⟩
    exact yulRuntime_of_wrapper hlinks hlimit hne hshort h hstart

/-- A push says how many bytes it has. -/
theorem push_append_inj {a b rest rest' : List Byte} (ha : Immediate a) (hb : Immediate b)
    (h : push a ++ rest = push b ++ rest') : a = b ∧ rest = rest' := by
  rw [push, push, cons_append, cons_append] at h
  obtain ⟨hopcode, htail⟩ := List.cons.inj h
  have hval := congrArg Fin.val hopcode
  rw [val_push ha.2, val_push hb.2] at hval
  exact append_inj htail (by omega)

/-- **Every wrapper that designates the code behind it** is accepted with this code if it
    copies it to the start of the memory, and rejected otherwise. -/
theorem deriveYulRuntime_wrapper (h : Designates size offset destination returnOffset runtime)
    (hne : runtime ≠ []) (hshort : runtime.length ≤ maxMatcherBytecodeBytes)
    (hlimit : (yulWrapper size offset destination returnOffset ++ runtime).length
      ≤ maxInitCodeSize) :
    deriveYulRuntime maxInitCodeSize (yulWrapper size offset destination returnOffset ++ runtime)
        .empty
      = if AtStart destination returnOffset then .ok runtime
        else .error .compiledCodeMalformed := by
  by_cases hstart : AtStart destination returnOffset
  · rw [if_pos hstart]
    exact deriveYulRuntime_eq_ok.mpr
      ⟨rfl, hlimit, hne, hshort, size, offset, destination, returnOffset, rfl, h, hstart⟩
  · rw [if_neg hstart]
    cases hderived : deriveYulRuntime maxInitCodeSize
        (yulWrapper size offset destination returnOffset ++ runtime) .empty with
    | error err =>
      unfold deriveYulRuntime at hderived
      split at hderived
      · cases hderived
      · exact hderived.symm
    | ok found =>
      -- the wrapper that was read is this one
      obtain ⟨-, -, -, -, size', offset', destination', returnOffset', hcode, h', hstart'⟩ :=
        deriveYulRuntime_eq_ok.mp hderived
      rw [yulWrapper_append, yulWrapper_append] at hcode
      obtain ⟨-, hcode⟩ := push_append_inj h.size_immediate h'.size_immediate hcode
      obtain ⟨-, hcode⟩ := push_append_inj h.offset_immediate h'.offset_immediate
        (List.cons.inj hcode).2
      obtain ⟨rfl, htail⟩ := push_append_inj h.destination_immediate h'.destination_immediate
        hcode
      obtain ⟨rfl, -⟩ := push_append_inj h.return_immediate h'.return_immediate
        (List.cons.inj (List.cons.inj htail).2).2
      exact absurd hstart' hstart

/-! ## Running the wrapper -/

/-- **The wrapper returns the runtime code** if it returns the memory from where it was
    copied to. -/
theorem wrapper_returns (h : Designates size offset destination returnOffset runtime)
    (hsame : bigEndian destination = bigEndian returnOffset) :
    run (yulWrapper size offset destination returnOffset ++ runtime) 8 State.initial
      = .returned runtime := by
  generalize hcode : yulWrapper size offset destination returnOffset ++ runtime = code
  have hd1 : code.drop 0 = push size ++ _ := hcode.symm.trans yulWrapper_append
  obtain ⟨hs1, hd2⟩ := step_push [] (fun _ => zeroByte) hd1 h.size_immediate.1
    h.size_immediate.2 (by decide)
  obtain ⟨hs2, hd3⟩ := step_dup1 [] (fun _ => zeroByte) (bigEndian size) hd2 (by decide)
  obtain ⟨hs3, hd4⟩ := step_push [bigEndian size, bigEndian size] (fun _ => zeroByte) hd3
    h.offset_immediate.1 h.offset_immediate.2 (show 2 < 1024 by decide)
  obtain ⟨hs4, hd5⟩ := step_push [bigEndian offset, bigEndian size, bigEndian size]
    (fun _ => zeroByte) hd4 h.destination_immediate.1 h.destination_immediate.2
    (show 3 < 1024 by decide)
  obtain ⟨hs5, hd6⟩ := step_codecopy [bigEndian size] (fun _ => zeroByte)
    (bigEndian destination) (bigEndian offset) (bigEndian size) hd5
  generalize hcopied : copyTo (fun _ => zeroByte) (bigEndian destination) (bigEndian size)
    (fun i => byteAt code (bigEndian offset + i)) = copied at hs5
  obtain ⟨hs6, hd7⟩ := step_dup1 [] copied (bigEndian size) hd6 (by decide)
  obtain ⟨hs7, hd8⟩ := step_push [bigEndian size, bigEndian size] copied hd7
    h.return_immediate.1 h.return_immediate.2 (show 2 < 1024 by decide)
  have hs8 := step_ret [bigEndian size] copied (bigEndian returnOffset) (bigEndian size) hd8
  rw [State.initial, run_running hs1, run_running hs2, run_running hs3, run_running hs4,
    run_running hs5, run_running hs6, run_running hs7, run_returned hs8, ← hcopied,
    hsame, read_copyTo]
  -- the offset is the length of the wrapper, behind which the runtime code lies
  have hdrop : code.drop (bigEndian offset) = runtime ++ [] := by
    rw [h.offset_eq, ← hcode, drop_left, append_nil]
  rw [h.size_eq, (bytes_of_drop hdrop).1]

/-- **The runtime code of a Yul object.** Creation code for which a runtime code is derived
    returns exactly this code when it is run as init code.  Every wrapper that designates
    the bytes behind it, with pushes of any width, is accepted if its destination and its
    return offset are zero, and rejected otherwise. -/
theorem yul_wrapper_execution : (deriveYulRuntime maxInitCodeSize creation .empty = .ok runtime →
      ∃ steps, run creation steps State.initial = .returned runtime)
    ∧ (∀ size offset destination returnOffset,
      Designates size offset destination returnOffset runtime → runtime ≠ [] →
      runtime.length ≤ maxMatcherBytecodeBytes →
      (yulWrapper size offset destination returnOffset ++ runtime).length ≤ maxInitCodeSize →
      deriveYulRuntime maxInitCodeSize
          (yulWrapper size offset destination returnOffset ++ runtime) .empty
        = if bigEndian destination = 0 ∧ bigEndian returnOffset = 0 then .ok runtime
          else .error .compiledCodeMalformed) := by
  constructor
  · intro h
    obtain ⟨-, -, -, -, size, offset, destination, returnOffset, rfl, hdes, hstart⟩ :=
      deriveYulRuntime_eq_ok.mp h
    exact ⟨8, wrapper_returns hdes (hstart.1.trans hstart.2.symm)⟩
  · intro size offset destination returnOffset hdes hne hshort hlimit
    exact deriveYulRuntime_wrapper hdes hne hshort hlimit

end Wrapper

/-- A wrapper with the shortest pushes in front of one byte. -/
theorem yul_wrapper_execution_shortest :
    deriveYulRuntime 49152 (bytesOf [0x60, 1, 0x80, 0x60, 14, 0x60, 0, 0x39, 0x80, 0x60, 0, 0xf3,
        0x50, 0xfe, 42]) .empty = .ok (bytesOf [42])
      ∧ ∃ steps,
        run (bytesOf [0x60, 1, 0x80, 0x60, 14, 0x60, 0, 0x39, 0x80, 0x60, 0, 0xf3, 0x50,
        0xfe, 42]) steps State.initial = .returned (bytesOf [42]) := by
  have h : deriveYulRuntime 49152 (bytesOf [0x60, 1, 0x80, 0x60, 14, 0x60, 0, 0x39, 0x80, 0x60, 0,
      0xf3, 0x50, 0xfe, 42]) .empty = .ok (bytesOf [42]) := by
    decide +kernel
  exact ⟨h, yul_wrapper_execution.1 h⟩

/-- A wrapper that copies the byte behind it to place 5 of the memory and returns it from
    there: its run returns the byte, and it is rejected. -/
theorem moved_wrapper_rejected :
    Designates (bytesOf [1]) (bytesOf [14]) (bytesOf [5]) (bytesOf [5]) (bytesOf [42])
      ∧ (∃ steps, run (yulWrapper (bytesOf [1]) (bytesOf [14]) (bytesOf [5]) (bytesOf [5])
          ++ bytesOf [42]) steps State.initial = .returned (bytesOf [42]))
      ∧ deriveYulRuntime 49152
        (yulWrapper (bytesOf [1]) (bytesOf [14]) (bytesOf [5]) (bytesOf [5])
          ++ bytesOf [42]) .empty = .error .compiledCodeMalformed := by
  have hdes : Designates (bytesOf [1]) (bytesOf [14]) (bytesOf [5]) (bytesOf [5])
      (bytesOf [42]) := by
    refine ⟨?_, ?_, ?_, ?_, by decide, by decide⟩
    all_goals exact ⟨by decide, by decide⟩
  exact ⟨hdes, ⟨8, wrapper_returns hdes rfl⟩, by decide +kernel⟩

end Verify
