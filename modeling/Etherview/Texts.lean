import Mathlib.Data.List.Basic
import Mathlib.Data.String.Basic

/-! # Texts put together

    `strings.TrimSpace` and `big.Int.SetString`, which more than one part of the program
    calls.  Texts with a separator between them can be taken apart again where the
    separator does not occur in them (`separated_inj`, `intercalate_injective`).  So a path
    of names, written with a dot between two names, is determined by its text where every
    name is non-empty and free of dots (`dotted_injective`). -/

namespace Texts

open List

/-! ## Trimming -/

/-- `unicode.IsSpace`. -/
def isSpace (c : Char) : Bool :=
  [0x09, 0x0a, 0x0b, 0x0c, 0x0d, 0x20, 0x85, 0xa0, 0x1680, 0x2028, 0x2029, 0x202f, 0x205f,
      0x3000].contains c.toNat
    || (decide (0x2000 ≤ c.toNat) && decide (c.toNat ≤ 0x200a))

/-- `strings.TrimSpace`. -/
def trimSpace (text : String) : String :=
  String.ofList ((text.toList.dropWhile isSpace).reverse.dropWhile isSpace).reverse

/-! ## Numbers -/

/-- The value of a digit of a base up to 16. -/
def digitOf (c : Char) : Option Nat :=
  if '0' ≤ c ∧ c ≤ '9' then some (c.toNat - '0'.toNat)
  else if 'a' ≤ c ∧ c ≤ 'f' then some (c.toNat - 'a'.toNat + 10)
  else if 'A' ≤ c ∧ c ≤ 'F' then some (c.toNat - 'A'.toNat + 10)
  else none

/-- The number some digits of a base stand for. -/
def digitsValue (base : Nat) : Nat → List Char → Option Nat
  | n, [] => some n
  | n, c :: rest =>
    match digitOf c with
    | some d => if d < base then digitsValue base (n * base + d) rest else none
    | none => none

/-- `big.Int.SetString`: digits behind an optional sign. -/
def setString (base : Nat) : List Char → Option Int
  | [] => none
  | '-' :: digits =>
    if digits = [] then none else (digitsValue base 0 digits).map fun n => -(n : Int)
  | '+' :: digits =>
    if digits = [] then none else (digitsValue base 0 digits).map fun n => (n : Int)
  | digits => (digitsValue base 0 digits).map fun n => (n : Int)

/-! ## Separators -/

/-- Two texts without a separator in front of something that is empty or starts with
    one. -/
theorem separated_inj {sep : Char} {a b s t : List Char} (ha : sep ∉ a) (hb : sep ∉ b)
    (hs : ∀ c ∈ s.head?, c = sep) (ht : ∀ c ∈ t.head?, c = sep) (h : a ++ s = b ++ t) :
    a = b ∧ s = t := by
  -- the front is what stands before the first separator
  have hfront : ∀ {a s : List Char}, sep ∉ a → (∀ c ∈ s.head?, c = sep) →
      (a ++ s).takeWhile (· ≠ sep) = a := by
    intro a s ha hs
    have hpos : ∀ c ∈ a, decide (c ≠ sep) = true :=
      fun c hc => decide_eq_true (ne_of_mem_of_not_mem hc ha)
    rw [takeWhile_append_of_pos hpos]
    cases s with
    | nil => exact append_nil a
    | cons c s => simp [hs c rfl]
  have hab := congrArg (takeWhile (· ≠ sep)) h
  rw [hfront ha hs, hfront hb ht] at hab
  subst hab
  exact ⟨rfl, append_cancel_left h⟩

variable {c : Char}

theorem isDigit_of_mem_toString {n : Nat} (h : c ∈ (toString n).toList) : c.isDigit = true := by
  rw [show (toString n).toList = Nat.toDigits 10 n from Nat.toList_repr] at h
  exact Nat.isDigit_of_mem_toDigits (by decide) (by decide) h

variable {sep : String} {texts : List String}

/-- Joined texts without the separator are split again. -/
theorem splitOn_intercalate
    (hsep : sep.toList = [c]) (hne : texts ≠ []) (h : ∀ text ∈ texts, c ∉ text.toList) :
    (sep.intercalate texts).toList.splitOn c = texts.map String.toList := by
  rw [String.toList_intercalate, hsep]
  refine List.splitOn_intercalate c ?_ ?_
  · intro chars hchars
    obtain ⟨text, htext, rfl⟩ := List.mem_map.mp hchars
    exact h text htext
  · exact fun hnil => hne (List.map_eq_nil_iff.mp hnil)

/-- **Joined texts can be taken apart** where none of them has the separator. -/
theorem intercalate_injective {texts' : List String}
    (hsep : sep.toList = [c]) (hne : texts ≠ []) (hne' : texts' ≠ [])
    (h : ∀ text ∈ texts, c ∉ text.toList) (h' : ∀ text ∈ texts', c ∉ text.toList)
    (heq : sep.intercalate texts = sep.intercalate texts') : texts = texts' := by
  have hsplit := splitOn_intercalate hsep hne h
  rw [heq, splitOn_intercalate hsep hne' h'] at hsplit
  exact (List.map_injective_iff.mpr fun _ _ => String.toList_inj.mp) hsplit.symm

/-! ## Dotted names -/

/-- One more name behind a dotted text, which is empty at the root. -/
def joinName (parent name : String) : String :=
  if parent ≠ "" then parent ++ "." ++ name else name

/-- The names of a path, joined by dots. -/
def dotted (path : List String) : String := path.foldl joinName ""

theorem dotted_append (path : List String) (name : String) :
    dotted (path ++ [name]) = joinName (dotted path) name := by
  rw [dotted, foldl_append]
  rfl

/-- A name that is not empty and has no dot. -/
def PlainName (name : String) : Prop := name ≠ "" ∧ '.' ∉ name.toList

/-- Joining names one by one. -/
theorem foldl_joinName {first : String} (hfirst : first ≠ "") (rest : List String) :
    rest.foldl joinName first = ".".intercalate (first :: rest) := by
  induction rest generalizing first with
  | nil => rfl
  | cons name rest ih =>
    have hjoin : joinName first name = first ++ "." ++ name := if_pos hfirst
    have hne : first ++ "." ++ name ≠ "" := by
      intro h
      have hlen := congrArg (fun s : String => s.toList.length) h
      simp at hlen
    rw [foldl_cons, hjoin, ih hne]
    rfl

/-- A path of plain names is joined by dots. -/
theorem dotted_eq {path : List String} (h : ∀ name ∈ path, PlainName name) :
    dotted path = ".".intercalate path := by
  cases path with
  | nil => rfl
  | cons name rest =>
    have hstart : joinName "" name = name := if_neg (fun h => h rfl)
    rw [dotted, foldl_cons, hstart, foldl_joinName (h name mem_cons_self).1]

/-- **Dotted names tell plain paths apart.** -/
theorem dotted_injective {path path' : List String} (hne : path ≠ []) (hne' : path' ≠ [])
    (h : ∀ name ∈ path, PlainName name) (h' : ∀ name ∈ path', PlainName name)
    (heq : dotted path = dotted path') : path = path' := by
  rw [dotted_eq h, dotted_eq h'] at heq
  exact intercalate_injective rfl hne hne' (fun name hname => (h name hname).2)
    (fun name hname => (h' name hname).2) heq

end Texts
