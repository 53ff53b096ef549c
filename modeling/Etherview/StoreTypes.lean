import Mathlib.Data.Finmap
import Mathlib.Data.Finset.Max
import Etherview.IntervalSet
import Etherview.Transact

/-! # The data of the block store

    Heights, hashes, block references, coverage ranges, leases, journals and the
    errors of `internal/store`, as the repository methods read and write them.

    * A height is a Go `uint64`: `Fin (2 ^ 64)`, with wrapping addition.
    * A Go map is a `Finmap`.
    * Blocks reach the store as bundles.  The store reads four things off a
      bundle — its number, its hash, its parent hash and an owned copy of it —
      and `ChainBundle` names these with the one property that hashing
      contributes: the hash of a block determines its number and its parent. -/

namespace Store

open IntervalSet Transact

/-- Go's `uint64`. -/
abbrev Uint64 := Fin 18446744073709551616

instance uint64NeZero : @NeZero Nat Zero.ofOfNat0 18446744073709551616 :=
  ⟨Nat.succ_ne_zero 18446744073709551615⟩

/-- `math.MaxUint64`. -/
def maxUint64 : Uint64 := 18446744073709551615

@[simp] theorem maxUint64_val : maxUint64.val = 18446744073709551615 := rfl

/-- A height is the greatest one iff its number is. -/
theorem eq_maxUint64_iff {n : Uint64} : n = maxUint64 ↔ n.val = 18446744073709551615 := by
  rw [← Fin.val_inj, maxUint64_val]

/-- No height is above the greatest one. -/
theorem le_maxUint64 (n : Uint64) : n ≤ maxUint64 := by
  rw [Fin.le_def, maxUint64_val]
  omega

/-- The successor of a height below `MaxUint64` does not wrap. -/
theorem val_add_one {n : Uint64} (h : n ≠ maxUint64) : (n + 1).val = n.val + 1 := by
  have := mt eq_maxUint64_iff.mpr h
  omega

/-- Below the greatest height the next one is the least above. -/
theorem next_le_iff {n m : Uint64} (h : n ≠ maxUint64) : n + 1 ≤ m ↔ n < m := by
  rw [Fin.le_def, Fin.lt_def, val_add_one h]
  exact Nat.succ_le_iff

/-- Counting up is injective, also where it wraps. -/
theorem add_one_inj {n m : Uint64} (h : n + 1 = m + 1) : n = m := by
  have hv := congrArg Fin.val h
  exact Fin.ext (by omega)

theorem val_sub_one {n : Uint64} (h : n ≠ 0) : (n - 1).val = n.val - 1 := by
  have : n.val ≠ 0 := fun h0 => h (Fin.ext h0)
  omega

/-- A height below another is not the greatest one. -/
theorem ne_maxUint64_of_lt {n m : Uint64} (h : n < m) : n ≠ maxUint64 := by
  intro hmax
  rw [Fin.lt_def, hmax, maxUint64_val] at h
  omega

/-- The conversion `uint64(n)` of a length or an index. -/
def uint64 (n : Nat) : Uint64 := Fin.ofNat 18446744073709551616 n

/-- A number in range is converted without loss. -/
theorem uint64_val {n : Nat} (h : n < 18446744073709551616) : (uint64 n).val = n :=
  Nat.mod_eq_of_lt h

/-- A Go slice: its length is an `int`. -/
abbrev Slice (α : Type) := { l : List α // l.length < 9223372036854775808 }

/-- The nil slice. -/
def emptySlice {α : Type} : Slice α := ⟨[], Nat.succ_pos _⟩

/-- What `errors.Is` can tell about a store error: one of the sentinels, a plain
    error, or the run-time panic of an index out of range. -/
inductive ErrorKind where
  | conflict
  | checkpointRegress
  | finalityRegress
  | finalizedRefresh
  | indexNotConfigured
  | indexConfigurationMismatch
  | leaseLost
  | plain
  | panic
deriving DecidableEq, Repr

/-- The text of a sentinel. -/
def ErrorKind.text : ErrorKind → String
  | .conflict => "store state conflicts with requested canonical update"
  | .checkpointRegress => "checkpoint would regress"
  | .finalityRegress => "finality would regress"
  | .finalizedRefresh => "canonical refresh intersects finalized history"
  | .indexNotConfigured => "core index coverage is not configured"
  | .indexConfigurationMismatch => "configured index start does not match persisted value"
  | .leaseLost => "backfill range lease is no longer owned"
  | .plain => ""
  | .panic => "runtime error"

/-- An error value with its message. -/
structure StoreError where
  kind : ErrorKind
  text : String
deriving DecidableEq, Repr

namespace StoreError

/-- A sentinel returned as it is. -/
def sentinel (kind : ErrorKind) : StoreError := ⟨kind, kind.text⟩

/-- A sentinel wrapped with a detail after it. -/
def detailed (kind : ErrorKind) (detail : String) : StoreError :=
  ⟨kind, kind.text ++ ": " ++ detail⟩

/-- An error that wraps no sentinel. -/
def plain (text : String) : StoreError := ⟨.plain, text⟩

/-- `ErrConflict` with a detail. -/
def conflict (detail : String) : StoreError := detailed .conflict detail

/-- The error that stands for a Go slice access out of range. -/
def indexOutOfRange : StoreError := detailed .panic "index out of range"

/-- An error wrapped with a context before it. -/
def wrap (context : String) (err : StoreError) : StoreError :=
  { err with text := context ++ ": " ++ err.text }

end StoreError

/-- The part of a chain bundle the store depends on.  `number`, `blockHash` and
    `parentHash` are the methods of the same name; `clone` takes ownership and
    fails when the bundle does not validate.

    * `identity` — two blocks with one hash agree on number and parent hash;
    * `clone_hash` — an owned copy is the same block;
    * `clone_clone` — an owned copy validates and is its own copy. -/
class ChainBundle (B : Type) (H : outParam Type) where
  number : B → Except String Uint64
  blockHash : B → Except String H
  parentHash : B → H
  clone : B → Except String B
  identity : ∀ {a b : B} {h : H}, blockHash a = .ok h → blockHash b = .ok h →
    number a = number b ∧ parentHash a = parentHash b
  clone_hash : ∀ {b c : B}, clone b = .ok c → ∃ h, blockHash b = .ok h ∧ blockHash c = .ok h
  clone_clone : ∀ {b c : B}, clone b = .ok c → clone c = .ok c

/-- A block identity at a height. -/
structure BlockRef (H : Type) where
  number : Uint64
  hash : H
  parentHash : H
deriving DecidableEq, Repr

/-- An inclusive interval of heights; `stop` is the source's `End`. -/
abbrev BlockRange := Span Uint64

/-- The progress marker of one stage. -/
structure Checkpoint (H : Type) where
  stage : String
  contiguousThrough : Uint64
  blockHash : H
deriving DecidableEq, Repr

/-- The stage name of the core indexer. -/
def coreCheckpoint : String := "core"

/-- The stored safe and finalized markers. -/
structure Finality (H : Type) where
  safe : Option (BlockRef H)
  finalized : Option (BlockRef H)
deriving DecidableEq, Repr

/-- Journal bytes, split by `json.Valid`. -/
inductive Payload where
  | json (text : String)
  | malformed (text : String)
deriving DecidableEq, Repr

/-- `json.Valid`. -/
def Payload.valid : Payload → Bool
  | .json _ => true
  | .malformed _ => false

/-- One enrichment journal entry of a block. -/
structure JournalEntry (H : Type) where
  blockHash : H
  stage : String
  sequence : Uint64
  payload : Payload
  canonical : Bool
deriving DecidableEq, Repr

/-- A head replacement that shares the ancestor with the current chain. -/
structure Reorg (B H : Type) where
  ancestor : BlockRef H
  /-- Current tip down to the block after the ancestor. -/
  detached : Slice (BlockRef H)
  /-- The block after the ancestor up to the new tip. -/
  attached : Slice B
  checkpoint : Checkpoint H
  reason : String

/-- Operator authorization to rewrite finalized facts. -/
structure RefreshOptions where
  allowFinalized : Bool
deriving DecidableEq, Repr

/-- The normalized view of committed core history. -/
structure CoreCoverage (H : Type) where
  configuredStart : Uint64
  ranges : List BlockRange
  contiguous : Option (BlockRef H)
  highest : Option (BlockRef H)
deriving DecidableEq, Repr

/-- An exclusive claim on a range of missing heights; `expiresAt` counts from
    the zero time. -/
structure BackfillLease where
  chainID : String
  range : BlockRange
  owner : String
  token : String
  expiresAt : Int
deriving DecidableEq, Repr

/-- Replacement of the highest disconnected coverage range, optionally reaching
    down to a common ancestor below it. -/
structure SparseCanonicalReplacement (B H : Type) where
  range : BlockRange
  ancestor : Option (BlockRef H)
  detached : Slice (BlockRef H)
  attached : Slice B
  reason : String

/-! ## Reading a bundle -/

section Bundles

variable {B H : Type} [ChainBundle B H]

/-- A copy of a bundle, with the error of the store. -/
def cloneBundle (bundle : B) : Except StoreError B := (ChainBundle.clone bundle).mapError .plain

/-- The reference of a bundle: its height, its hash and its parent's hash. -/
def refFromBundle (bundle : B) : Except StoreError (BlockRef H) := do
  let number ← (ChainBundle.number bundle).mapError .plain
  let hash ← (ChainBundle.blockHash bundle).mapError .plain
  return { number, hash, parentHash := ChainBundle.parentHash bundle }

theorem mapError_eq_ok {ε ε' α : Type} {f : ε → ε'} {x : Except ε α} {a : α} :
    x.mapError f = .ok a ↔ x = .ok a := by
  cases x with
  | error e => simp [Except.mapError]
  | ok b => simp [Except.mapError]

/-- What a reference read from a bundle consists of. -/
theorem refFromBundle_ok {bundle : B} {r : BlockRef H} (h : refFromBundle bundle = .ok r) :
    ChainBundle.number bundle = .ok r.number ∧ ChainBundle.blockHash bundle = .ok r.hash
      ∧ ChainBundle.parentHash bundle = r.parentHash := by
  obtain ⟨n, hn, h⟩ := bind_eq_ok.mp h
  obtain ⟨hash, hh, h⟩ := bind_eq_ok.mp h
  have hr := pure_eq_ok.mp h
  rw [mapError_eq_ok] at hn hh
  subst hr
  exact ⟨hn, hh, rfl⟩

/-- The hash determines the whole reference. -/
theorem refFromBundle_unique {a b : B} {r q : BlockRef H}
    (ha : refFromBundle a = .ok r) (hb : refFromBundle b = .ok q) (h : r.hash = q.hash) :
    r = q := by
  obtain ⟨hna, hha, hpa⟩ := refFromBundle_ok ha
  obtain ⟨hnb, hhb, hpb⟩ := refFromBundle_ok hb
  rw [h] at hha
  obtain ⟨hn, hp⟩ := ChainBundle.identity hha hhb
  obtain ⟨rn, rh, rp⟩ := r
  obtain ⟨qn, qh, qp⟩ := q
  simp only at *
  rw [hna, hnb] at hn
  cases hn
  rw [← hpa, ← hpb, hp, h]

/-- Copying succeeds as in the bundle's own type. -/
theorem cloneBundle_eq_ok {b c : B} :
    (cloneBundle b : Except StoreError B) = .ok c ↔ ChainBundle.clone b = .ok c :=
  mapError_eq_ok

/-- A copy has the reference of its original. -/
theorem refFromBundle_clone {b c : B} (h : cloneBundle b = .ok c) :
    (refFromBundle c : Except StoreError (BlockRef H)) = refFromBundle b := by
  obtain ⟨hash, hb, hc⟩ := ChainBundle.clone_hash (cloneBundle_eq_ok.mp h)
  obtain ⟨hn, hp⟩ := ChainBundle.identity hb hc
  unfold refFromBundle
  rw [hb, hc, hn, hp]

theorem cloneBundle_clone {b c : B} (h : cloneBundle b = .ok c) : cloneBundle c = .ok c :=
  cloneBundle_eq_ok.mpr (ChainBundle.clone_clone (cloneBundle_eq_ok.mp h))

end Bundles

/-! ## A collision-free hash

    The free term over the hashed fields: the hash of a block *is* its number,
    its parent hash and a discriminator for everything else. -/

/-- Symbolic block hashes. -/
inductive TermHash where
  | genesis
  | block (number : Nat) (parent : TermHash) (body : Nat)
deriving DecidableEq, Repr

/-- A block that hashes to a term. -/
structure TermBundle where
  number : Uint64
  parent : TermHash
  body : Nat
deriving DecidableEq, Repr

/-- The hash of a term block is the block itself, so that different blocks have different
    hashes. -/
def TermBundle.hash (b : TermBundle) : TermHash := .block b.number.val b.parent b.body

/-- The reference of a term block. -/
def TermBundle.ref (b : TermBundle) : BlockRef TermHash :=
  { number := b.number, hash := b.hash, parentHash := b.parent }

instance : ChainBundle TermBundle TermHash where
  number b := .ok b.number
  blockHash b := .ok b.hash
  parentHash b := b.parent
  clone b := .ok b
  identity := by
    intro a b h ha hb
    have hab : a.hash = b.hash := (Except.ok.inj ha).trans (Except.ok.inj hb).symm
    injection hab with hn hp _
    exact ⟨by rw [Fin.ext hn], hp⟩
  clone_hash := by
    intro b c h
    cases h
    exact ⟨_, rfl, rfl⟩
  clone_clone := by
    intro b c h
    cases h
    rfl

instance : ToString TermHash := ⟨fun h => toString (repr h)⟩

end Store
