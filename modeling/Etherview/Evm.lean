import Etherview.Patch
import Etherview.Hex

/-! # A part of the EVM

    Init code that pushes constants, duplicates and drops stack items, copies its own code
    into memory and returns memory.  An opcode outside this part is `unmodelled`, so a run
    that ends in another way is a run of the machine.  Gas is not counted.

    Words are numbers: nothing here computes with them, and what is pushed comes from at
    most 32 bytes.  Code reads as zero behind its end, memory is zero where it was not
    written. -/

namespace Evm

open Hex List

/-- The program counter, the stack and the memory. -/
structure State where
  pc : Nat
  stack : List Nat
  memory : Nat → Byte

/-- How a step or a run ends. -/
inductive Outcome where
  | running (s : State)
  | stopped
  | returned (data : List Byte)
  | failed
  | unmodelled

/-- The zero byte. -/
def zeroByte : Byte := Fin.ofNat 256 0

/-- The byte of a code at a position. -/
def byteAt (code : List Byte) (i : Nat) : Byte := code.getD i zeroByte

/-- Some bytes of a code, from a position on. -/
def bytesAt (code : List Byte) (start width : Nat) : List Byte :=
  (List.range width).map fun i => byteAt code (start + i)

/-- The empty stack and the empty memory in front of the first byte. -/
def State.initial : State := ⟨0, [], fun _ => zeroByte⟩

/-- Push a word and go on `width` bytes. -/
def State.push (s : State) (value width : Nat) : Outcome := if s.stack.length ≥ 1024 then .failed
  else .running { s with pc := s.pc + width, stack := value :: s.stack }

/-- Memory with bytes copied to a position. -/
def copyTo (memory : Nat → Byte) (start width : Nat) (source : Nat → Byte) : Nat → Byte :=
  fun i => if start ≤ i ∧ i < start + width then source (i - start) else memory i

/-- One instruction, by its opcode. -/
def exec (code : List Byte) (opcode : Nat) (s : State) : Outcome :=
  if opcode = 0x00 then .stopped
  else if opcode = 0x39 then
    match s.stack with
    | destination :: offset :: size :: rest => .running
        { pc := s.pc + 1
          stack := rest
          memory := copyTo s.memory destination size fun i => byteAt code (offset + i) }
    | _ => .failed
  else if opcode = 0x50 then
    match s.stack with
    | _ :: rest => .running { s with pc := s.pc + 1, stack := rest }
    | [] => .failed
  else if 0x60 ≤ opcode ∧ opcode ≤ 0x7f then
    s.push (bigEndian (bytesAt code (s.pc + 1) (opcode - 0x5f))) (1 + (opcode - 0x5f))
  else if 0x80 ≤ opcode ∧ opcode ≤ 0x8f then
    match s.stack[opcode - 0x80]? with
    | some value => s.push value 1
    | none => .failed
  else if opcode = 0xf3 then
    match s.stack with
    | offset :: size :: _ => .returned ((List.range size).map fun i => s.memory (offset + i))
    | _ => .failed
  else if opcode = 0xfe then .failed
  else .unmodelled

/-- The instruction at the program counter; behind the code the machine stops. -/
def step (code : List Byte) (s : State) : Outcome := match code[s.pc]? with
  | none => .stopped
  | some opcode => exec code opcode.val s

variable {code : List Byte}

/-- A step executes the opcode at the program counter. -/
theorem step_eq {s : State} {opcode : Byte} (h : code[s.pc]? = some opcode) :
    step code s = exec code opcode.val s := by
  rw [step, h]

/-- Some instructions, up to the end of the run. -/
def run (code : List Byte) : Nat → State → Outcome
  | 0, s => .running s
  | steps + 1, s =>
    match step code s with
    | .running t => run code steps t
    | outcome => outcome

theorem run_running {s t : State} (h : step code s = .running t)
    (steps : Nat) : run code (steps + 1) s = run code steps t := by
  rw [run, h]

theorem run_returned {s : State} {data : List Byte}
    (h : step code s = .returned data) (steps : Nat) :
    run code (steps + 1) s = .returned data := by
  rw [run, h]

/-! ## Code from a position on -/

section Pieces

variable {code rest : List Byte} {pc : Nat}

/-- The first byte of the code that is left. -/
theorem byte_of_drop {b : Byte} (h : code.drop pc = b :: rest) :
    code[pc]? = some b ∧ code.drop (pc + 1) = rest := by
  constructor
  · have hget := congrArg (fun l : List Byte => l[0]?) h
    simp only [getElem?_drop, add_zero] at hget
    exact hget
  · rw [← drop_drop, h]
    rfl

/-- The first bytes of the code that is left. -/
theorem bytes_of_drop {piece : List Byte} (h : code.drop pc = piece ++ rest) :
    bytesAt code pc piece.length = piece ∧ code.drop (pc + piece.length) = rest := by
  constructor
  · refine ext_getElem? (fun i => ?_)
    unfold bytesAt byteAt
    by_cases hi : i < piece.length
    · have hget := congrArg (fun l : List Byte => l[i]?) h
      simp only [getElem?_drop] at hget
      rw [getElem?_append_left hi] at hget
      rw [getElem?_map, getElem?_range hi, Option.map_some, getD_eq_getElem?_getD,
        hget, getElem?_eq_getElem hi, Option.getD_some]
    · rw [getElem?_eq_none (by rw [length_map, length_range]; omega), getElem?_eq_none (by omega)]
  · rw [← drop_drop, h, drop_left]

end Pieces

/-! ## Instructions -/

/-- The bytes of a push of at most 32 bytes. -/
def push (immediate : List Byte) : List Byte := Fin.ofNat 256 (0x5f + immediate.length) :: immediate

/-- `DUP1`. -/
def dup1 : Byte := Fin.ofNat 256 0x80

/-- `CODECOPY`. -/
def codecopy : Byte := Fin.ofNat 256 0x39

/-- `POP`. -/
def pop : Byte := Fin.ofNat 256 0x50

/-- `RETURN`. -/
def ret : Byte := Fin.ofNat 256 0xf3

/-- `INVALID`. -/
def invalid : Byte := Fin.ofNat 256 0xfe

theorem length_push (immediate : List Byte) : (push immediate).length = 1 + immediate.length := by
  rw [push, length_cons, add_comm]

/-- The opcode of a push tells the size of what is pushed. -/
theorem val_push {immediate : List Byte} (h : immediate.length ≤ 32) :
    (Fin.ofNat 256 (0x5f + immediate.length)).val = 0x5f + immediate.length :=
  Nat.mod_eq_of_lt (by omega)

section Steps

variable {code rest : List Byte} {pc : Nat} (stack : List Nat) (memory : Nat → Byte)

/-- `PUSH1` to `PUSH32`. -/
theorem step_push {immediate : List Byte} (h : code.drop pc = push immediate ++ rest)
    (hpos : 1 ≤ immediate.length) (hwide : immediate.length ≤ 32)
    (hstack : stack.length < 1024) :
    step code ⟨pc, stack, memory⟩
        = .running ⟨pc + (push immediate).length, bigEndian immediate :: stack, memory⟩
      ∧ code.drop (pc + (push immediate).length) = rest := by
  obtain ⟨hop, hdrop⟩ := byte_of_drop h
  obtain ⟨hbytes, hrest⟩ := bytes_of_drop hdrop
  rw [length_push, ← add_assoc]
  refine ⟨?_, hrest⟩
  rw [step_eq hop, val_push hwide, exec, if_neg (by omega), if_neg (by omega), if_neg (by omega),
    if_pos (by omega), Nat.add_sub_cancel_left, hbytes, State.push, if_neg (not_le.mpr hstack),
    add_assoc]

/-- `DUP1` repeats the top of the stack. -/
theorem step_dup1 (value : Nat) (h : code.drop pc = dup1 :: rest) (hstack : stack.length < 1023) :
    step code ⟨pc, value :: stack, memory⟩
      = .running ⟨pc + 1, value :: value :: stack, memory⟩
      ∧ code.drop (pc + 1) = rest := by
  obtain ⟨hop, hdrop⟩ := byte_of_drop h
  have hlength : ¬ (value :: stack).length ≥ 1024 := by
    rw [length_cons]
    omega
  refine ⟨?_, hdrop⟩
  rw [step_eq hop]
  show State.push _ _ _ = _
  rw [State.push, if_neg hlength]

/-- `CODECOPY` copies code into the memory. -/
theorem step_codecopy (destination offset size : Nat) (h : code.drop pc = codecopy :: rest) :
    step code ⟨pc, destination :: offset :: size :: stack, memory⟩
        = .running ⟨pc + 1, stack, copyTo memory destination size fun i =>
          byteAt code (offset + i)⟩
      ∧ code.drop (pc + 1) = rest := by
  obtain ⟨hop, hdrop⟩ := byte_of_drop h
  refine ⟨?_, hdrop⟩
  rw [step_eq hop]
  rfl

/-- `RETURN` ends the run with a part of the memory. -/
theorem step_ret (offset size : Nat) (h : code.drop pc = ret :: rest) :
    step code ⟨pc, offset :: size :: stack, memory⟩
      = .returned ((List.range size).map fun i => memory (offset + i)) := by
  rw [step_eq (byte_of_drop h).1]
  rfl

/-- What was copied is read back from the place it was copied to. -/
theorem read_copyTo (code : List Byte) (start offset size : Nat) :
    (range size).map
        (fun i => copyTo memory start size (fun i => byteAt code (offset + i)) (start + i))
      = bytesAt code offset size := by
  refine map_congr_left (fun i hi => ?_)
  have hi := mem_range.mp hi
  rw [copyTo, if_pos (by omega), Nat.add_sub_cancel_left]

end Steps

end Evm
