import Etherview.Hex
import Etherview.Slices

/-! # Requests of user operations

    `normalizeV06` and `normalizePacked` of `internal/erc4337/abi.go` split the packed fields
    of a user operation that was decoded from the calldata of an EntryPoint.  A slice
    expression out of range is an outcome of its own, `Failure.sliceBounds`.  The function
    that makes an address of bytes belongs to go-ethereum: it is a parameter, of which only
    `CopiesAddress` is assumed, and that only where the fields are put together again.

    * `Yields` — a computation that stays in range, with what its result satisfies;
    * `Rebuilds` — the split fields put together are the fields of the operation;
    * `normalize_lossless` — nothing is lost, and nothing is out of range. -/

namespace Erc4337

open Hex List

/-! ## Operations and requests -/

/-- The versions of the EntryPoint. -/
inductive Version where
  | v06 | v07 | v08 | v09
deriving DecidableEq

/-- What `initCode` is for. -/
inductive InitKind where
  | none | factory | eip7702
deriving DecidableEq

/-- A byte array of fixed length. -/
abbrev Bytes (n : Nat) := { bytes : List Byte // bytes.length = n }

/-- The fields that all operations have and that a request copies. -/
structure WireFields where
  sender : Bytes 20
  nonce : Option Int
  initCode : List Byte
  callData : List Byte
  preVerificationGas : Option Int
  paymasterAndData : List Byte
  signature : List Byte
deriving DecidableEq

/-- An operation of version 0.6. -/
structure UserOperationV06Wire extends WireFields where
  callGasLimit : Option Int
  verificationGasLimit : Option Int
  maxFeePerGas : Option Int
  maxPriorityFeePerGas : Option Int

/-- An operation of the later versions, with its limits in words of 32 bytes. -/
structure PackedUserOperationWire extends WireFields where
  accountGasLimits : Bytes 32
  gasFees : Bytes 32

/-- The fields of a request that `normalizeInitCode` sets. -/
structure InitFields where
  initKind : InitKind
  factory : Option (Bytes 20)
  factoryData : List Byte
deriving DecidableEq

/-- The fields of a request that `normalizePaymaster` sets. -/
structure PaymasterFields where
  paymaster : Option (Bytes 20) := none
  paymasterVerificationGasLimit : Option Int := none
  paymasterPostOpGasLimit : Option Int := none
  paymasterData : List Byte := []
  paymasterSignature : List Byte := []
deriving DecidableEq

/-- `Request`, before the fields of an aggregator are set. -/
structure Request extends WireFields, InitFields, PaymasterFields where
  callGasLimit : Option Int
  verificationGasLimit : Option Int
  maxFeePerGas : Option Int
  maxPriorityFeePerGas : Option Int
  accountGasLimits : List Byte := []
  gasFees : List Byte := []
deriving DecidableEq

/-! ## Normalization -/

/-- What normalizing can fail with. -/
inductive Failure where
  | sliceBounds
  | rejected (text : String)
deriving DecidableEq

/-- `data[start:stop]`. -/
def slice (data : List Byte) (start stop : Int) : Except Failure (List Byte) :=
  (Slices.slice data start stop).elim (.error .sliceBounds) .ok

/-- `common.Address{}`. -/
def zeroAddress : Bytes 20 := ⟨replicate 20 0, rfl⟩

/-- `common.BytesToAddress` takes 20 bytes as they are. -/
def CopiesAddress (bytesToAddress : List Byte → Bytes 20) : Prop :=
  ∀ (bytes : List Byte) (h : bytes.length = 20), bytesToAddress bytes = ⟨bytes, h⟩

/-- `SetBytes` of a new `big.Int`. -/
def setBytes (bytes : List Byte) : Option Int := some (bigEndian bytes)

/-- The marker `0x7702`, of which any number of zeros may be left out. -/
def eip7702InitCode : List Byte → Bool
  | a :: b :: rest => a.val == 0x77 && b.val == 0x02 && (rest.take 18).all fun c => c.val == 0
  | _ => false

section Normalizing

variable (bytesToAddress : List Byte → Bytes 20)

/-- The fields of `initCode`. -/
def normalizeInitCode (version : Version) (initCode : List Byte) : Except Failure InitFields :=
  if initCode.length = 0 then .ok ⟨.none, none, []⟩
  else if (version = .v08 ∨ version = .v09) ∧ eip7702InitCode initCode = true then
    if initCode.length > 20 then do
      let factoryData ← slice initCode 20 initCode.length
      pure ⟨.eip7702, none, factoryData⟩
    else .ok ⟨.eip7702, none, []⟩
  else if initCode.length < 20 then
    .error (.rejected "EntryPoint initCode is shorter than a factory address")
  else do
    let factory ← slice initCode 0 20
    let factoryData ← slice initCode 20 initCode.length
    pure ⟨.factory, some (bytesToAddress factory), factoryData⟩

/-- The last bytes of a signature of a paymaster. -/
def paymasterSignatureMagic : List Byte :=
  bytesOf [0x22, 0xe3, 0x25, 0xa2, 0x97, 0x43, 0x96, 0x56]

/-- The end of the data of a paymaster, and the signature behind it. -/
def splitPaymasterSignature (version : Version) (data : List Byte) :
    Except Failure (Int × List Byte) :=
  let n : Int := data.length
  if version = .v09 ∧ n ≥ 62 then do
    let magic ← slice data (n - 8) n
    if magic = paymasterSignatureMagic then do
      -- the two bytes before the magic, as they are indexed one by one
      let high ← slice data (n - 10) (n - 9)
      let low ← slice data (n - 9) (n - 8)
      let signatureLength : Int := bigEndian (high ++ low)
      if signatureLength > n - 62 then
        .error (.rejected "EntryPoint v0.9 paymaster signature length is invalid")
      else if signatureLength > 0 then do
        let signature ← slice data (n - 10 - signatureLength) (n - 10)
        pure (n - 10 - signatureLength, signature)
      else pure (n, [])
    else pure (n, [])
  else pure (n, [])

/-- The fields of `paymasterAndData`. -/
def normalizePaymaster (version : Version) (data : List Byte) : Except Failure PaymasterFields :=
  if data.length = 0 then .ok {}
  else if data.length < 20 ∨ version ≠ .v06 ∧ data.length < 52 then
    .error (.rejected "EntryPoint paymasterAndData is shorter than its fixed fields")
  else do
    let address ← slice data 0 20
    let paymaster := bytesToAddress address
    -- the zero address is dropped, and the data behind it is kept
    let kept := if paymaster ≠ zeroAddress then some paymaster else none
    if version = .v06 then do
      let paymasterData ← slice data 20 data.length
      pure { paymaster := kept, paymasterData := paymasterData }
    else do
      let verificationGasLimit ← slice data 20 36
      let postOpGasLimit ← slice data 36 52
      let (dataEnd, signature) ← splitPaymasterSignature version data
      let paymasterData ← slice data 52 dataEnd
      pure ⟨kept, setBytes verificationGasLimit, setBytes postOpGasLimit,
        paymasterData, signature⟩

/-- Every number of a request is a `uint256`. -/
def validateRequest (request : Request) : Except Failure Unit :=
  let fields := [("nonce", request.nonce), ("call gas limit", request.callGasLimit),
    ("verification gas limit", request.verificationGasLimit),
    ("pre-verification gas", request.preVerificationGas), ("maximum fee", request.maxFeePerGas),
    ("maximum priority fee", request.maxPriorityFeePerGas)]
  match fields.find? fun field => !field.2.any fun v => decide (0 ≤ v ∧ v < 2 ^ 256) with
  | some field => .error (.rejected ("EntryPoint " ++ field.1 ++ " is outside uint256"))
  | none => .ok ()

/-- What the two normalizations have in common. -/
def normalize (version : Version) (op : WireFields)
    (request : InitFields → PaymasterFields → Request) : Except Failure Request := do
  let init ← normalizeInitCode bytesToAddress version op.initCode
  let paymaster ← normalizePaymaster bytesToAddress version op.paymasterAndData
  validateRequest (request init paymaster)
  pure (request init paymaster)

/-- The request of an operation of version 0.6. -/
def normalizeV06 (op : UserOperationV06Wire) : Except Failure Request :=
  normalize bytesToAddress .v06 op.toWireFields fun init paymaster =>
    { op.toWireFields, init, paymaster with
      callGasLimit := op.callGasLimit, verificationGasLimit := op.verificationGasLimit
      maxFeePerGas := op.maxFeePerGas, maxPriorityFeePerGas := op.maxPriorityFeePerGas }

/-- The request of a packed operation. -/
def normalizePacked (version : Version) (op : PackedUserOperationWire) :
    Except Failure Request := do
  let verificationGasLimit ← slice op.accountGasLimits.val 0 16
  let callGasLimit ← slice op.accountGasLimits.val 16 32
  let maxPriorityFeePerGas ← slice op.gasFees.val 0 16
  let maxFeePerGas ← slice op.gasFees.val 16 32
  normalize bytesToAddress version op.toWireFields fun init paymaster =>
    { op.toWireFields, init, paymaster with
      verificationGasLimit := setBytes verificationGasLimit, callGasLimit := setBytes callGasLimit
      maxPriorityFeePerGas := setBytes maxPriorityFeePerGas, maxFeePerGas := setBytes maxFeePerGas
      accountGasLimits := op.accountGasLimits.val, gasFees := op.gasFees.val }

end Normalizing

/-! ## What is put together again -/

/-- The big-endian bytes of a number, `n` of them. -/
def fixedBytes : Nat → Nat → List Byte
  | 0, _ => []
  | n + 1, value => fixedBytes n (value / 256) ++ [Fin.ofNat 256 value]

/-- The 16 bytes of a limit. -/
def limitBytes (limit : Option Int) : List Byte :=
  limit.elim [] fun value => fixedBytes 16 value.toNat

/-- The marker of an EIP-7702 operation: `0x7702`, padded with zeros. -/
def marker (length : Nat) : List Byte := bytesOf [0x77, 0x02] ++ replicate (length - 2) 0

/-- `initCode` from its fields. -/
def InitFields.Split (version : Version) (initCode : List Byte) (fields : InitFields) : Prop :=
  match fields.initKind with
  | .none => initCode = []
  | .factory => ∃ factory, fields.factory = some factory ∧
      initCode = factory.val ++ fields.factoryData
  | .eip7702 =>
    (version = .v08 ∨ version = .v09) ∧ ∃ length, 2 ≤ length ∧ length ≤ 20 ∧
      (fields.factoryData ≠ [] → length = 20) ∧ initCode = marker length ++ fields.factoryData

/-- The signature of a paymaster with its length and the magic. -/
def signatureTrailer (signature : List Byte) : List Byte := if signature = [] then []
  else signature ++ fixedBytes 2 signature.length ++ paymasterSignatureMagic

/-- `paymasterAndData` from its fields; a zero paymaster is not kept. -/
def PaymasterFields.bytes (fields : PaymasterFields) : List Byte :=
  (fields.paymaster.getD zeroAddress).val ++
    (limitBytes fields.paymasterVerificationGasLimit ++
      (limitBytes fields.paymasterPostOpGasLimit ++
        (fields.paymasterData ++ signatureTrailer fields.paymasterSignature)))

/-- `paymasterAndData` is empty, or what its fields put together are. -/
def PaymasterFields.Split (version : Version) (data : List Byte) (fields : PaymasterFields) :
    Prop :=
  (data = [] ∧ fields = {} ∨ data = fields.bytes ∧ (version ≠ .v06 →
    fields.paymasterVerificationGasLimit.isSome ∧ fields.paymasterPostOpGasLimit.isSome)) ∧
    (fields.paymasterSignature ≠ [] → version = .v09)

/-- The fields that a request of a packed operation copies. -/
def Copied (op : PackedUserOperationWire) (request : Request) : Prop :=
  request.toWireFields = op.toWireFields ∧ request.accountGasLimits = op.accountGasLimits.val
    ∧ request.gasFees = op.gasFees.val

/-- The fields of a packed operation from those of its request. -/
structure Rebuilds (version : Version) (op : PackedUserOperationWire) (request : Request) :
    Prop where
  copied : Copied op request
  initCode : request.toInitFields.Split version op.initCode
  accountGasLimits : op.accountGasLimits.val =
    limitBytes request.verificationGasLimit ++ limitBytes request.callGasLimit
  gasFees : op.gasFees.val =
    limitBytes request.maxPriorityFeePerGas ++ limitBytes request.maxFeePerGas
  paymaster : request.toPaymasterFields.Split version op.paymasterAndData

/-! ## Slices in range -/

section

variable {α β : Type} {post : α → Prop} {x : Except Failure α}

/-- A computation that stays in range, with what its result satisfies. -/
def Yields (post : α → Prop) : Except Failure α → Prop
  | .ok value => post value
  | .error .sliceBounds => False
  | .error (.rejected _) => True

/-- A computation in range after one in range. -/
theorem Yields.bind {post' : β → Prop} {f : α → Except Failure β} (hx : Yields post x)
    (hf : ∀ value, post value → Yields post' (f value)) : Yields post' (x >>= f) := by
  cases x with
  | ok value => exact hf value hx
  | error failure =>
    cases failure with
    | sliceBounds => exact hx
    | rejected text => trivial

/-- What a computation that stays in range comes to. -/
theorem Yields.and (hx : Yields post x) :
    x ≠ .error .sliceBounds ∧ ∀ value, x = .ok value → post value := by
  constructor
  · rintro rfl
    exact hx
  · rintro value rfl
    exact hx

end

variable {data : List Byte} {a b : Nat}

/-- The bytes from `a` up to `b`. -/
def part (data : List Byte) (a b : Nat) : List Byte := (data.drop a).take (b - a)

/-- A part and what comes behind it. -/
theorem part_append (hab : a ≤ b) : part data a b ++ data.drop b = data.drop a := by
  have h := take_append_drop (b - a) (data.drop a)
  rwa [drop_drop, Nat.add_sub_cancel' hab] at h

/-- The part up to the end. -/
theorem part_length (h : a ≤ data.length) : part data a data.length = data.drop a := by
  rw [← part_append h, drop_length, append_nil]

theorem length_part (hb : b ≤ data.length) : (part data a b).length = b - a := by
  rw [part, length_take, length_drop]
  omega

/-- **A slice in range** is the part between its bounds. -/
theorem slice_yields {β : Type} {post : β → Prop} {f : List Byte → Except Failure β}
    {start stop : Int}
    (a b : Nat) (h : Yields post (f (part data a b))) (ha : start = a := by omega)
    (hb : stop = b := by omega) (hab : a ≤ b := by omega) (hlen : b ≤ data.length := by omega) :
    Yields post (slice data start stop >>= f) := by
  subst ha hb
  have hslice : slice data a b = .ok (part data a b) := by
    obtain ⟨width, rfl⟩ := Nat.exists_eq_add_of_le hab
    rw [slice, Nat.cast_add, Slices.slice_eq hlen, part, Nat.add_sub_cancel_left]
    rfl
  rw [hslice]
  exact h

variable {bytes : List Byte}

/-- An address of 20 bytes has those bytes. -/
theorem CopiesAddress.val {bytesToAddress : List Byte → Bytes 20}
    (h : CopiesAddress bytesToAddress) (hlength : bytes.length = 20) :
    (bytesToAddress bytes).val = bytes := congrArg Subtype.val (h bytes hlength)

/-- The bytes of the number that bytes stand for. -/
theorem fixedBytes_bigEndian (bytes : List Byte) :
    fixedBytes bytes.length (bigEndian bytes) = bytes := by
  induction bytes using reverseRecOn with
  | nil => rfl
  | append_singleton rest b ih =>
    have hone : bigEndian [b] = b.val := Nat.zero_add _
    have hvalue : bigEndian (rest ++ [b]) = bigEndian rest * 256 + b.val := by
      rw [bigEndian_append, hone]
      rfl
    have hdiv : (bigEndian rest * 256 + b.val) / 256 = bigEndian rest := by omega
    have hmod : (bigEndian rest * 256 + b.val) % 256 = b.val := by omega
    rw [hvalue, length_append, length_singleton, fixedBytes, hdiv, ih]
    exact congrArg (rest ++ [·]) (Fin.ext hmod)

/-- The bytes of a limit that was read from bytes. -/
theorem limitBytes_setBytes (h : bytes.length = 16) : limitBytes (setBytes bytes) = bytes := by
  show fixedBytes 16 _ = bytes
  rw [Int.toNat_natCast, ← h]
  exact fixedBytes_bigEndian bytes

/-! ## The parts of an operation -/

/-- What passes for a marker begins with one. -/
theorem eip7702InitCode_marker {initCode : List Byte} (h : eip7702InitCode initCode = true) :
    2 ≤ initCode.length ∧ initCode.take 20 = marker (min 20 initCode.length) := by
  match initCode, h with
  | a :: b :: rest, h =>
    simp only [eip7702InitCode, Bool.and_eq_true, beq_iff_eq, all_eq_true] at h
    obtain ⟨⟨ha, hb⟩, hrest⟩ := h
    have hzeros : rest.take 18 = replicate (min 18 rest.length) 0 :=
      eq_replicate_iff.mpr ⟨length_take, fun c hc => Fin.ext (hrest c hc)⟩
    refine ⟨by simp, ?_⟩
    rw [marker, take_succ_cons, take_succ_cons, hzeros, length_cons, length_cons,
      show min 20 (rest.length + 1 + 1) - 2 = min 18 rest.length by omega]
    exact congrArg₂ (fun x y => x :: y :: _) (Fin.ext ha) (Fin.ext hb)

section Parts

variable (bytesToAddress : List Byte → Bytes 20)

/-- `initCode` is split in range and without loss. -/
theorem normalizeInitCode_yields (version : Version) (initCode : List Byte) :
    Yields (fun fields => CopiesAddress bytesToAddress → fields.Split version initCode)
      (normalizeInitCode bytesToAddress version initCode) := by
  rw [normalizeInitCode]
  split_ifs with hempty hmarker hlong hshort
  · exact fun _ => length_eq_zero_iff.mp hempty
  · refine slice_yields 20 initCode.length fun _ => ?_
    obtain ⟨-, hmark⟩ := eip7702InitCode_marker hmarker.2
    rw [Nat.min_eq_left hlong.le] at hmark
    refine ⟨hmarker.1, 20, by decide, le_rfl, fun _ => rfl, ?_⟩
    rw [← hmark, part_length hlong.le, take_append_drop]
  · -- a marker of at most 20 bytes is all of it
    obtain ⟨h2, hmark⟩ := eip7702InitCode_marker hmarker.2
    have hlength := Nat.not_lt.mp hlong
    rw [Nat.min_eq_right hlength, take_of_length_le hlength] at hmark
    exact fun _ => ⟨hmarker.1, _, h2, hlength, absurd rfl, hmark.trans (append_nil _).symm⟩
  · trivial
  · have h20 := Nat.not_lt.mp hshort
    refine slice_yields 0 20 ?_
    refine slice_yields 20 initCode.length fun hcopies => ?_
    refine ⟨_, rfl, ?_⟩
    rw [hcopies.val (length_part h20), part_length h20, part_append (Nat.zero_le _)]
    rfl

/-- The signature of a paymaster is split off in range and without loss. -/
theorem splitPaymasterSignature_yields (version : Version) (h52 : 52 ≤ data.length) :
    Yields (fun r : Int × List Byte => ∃ stop : Nat,
        r.1 = stop ∧ 52 ≤ stop ∧ stop ≤ data.length ∧
        data.drop stop = signatureTrailer r.2 ∧ (r.2 ≠ [] → version = .v09))
      (splitPaymasterSignature version data) := by
  have hnone : data.drop data.length = signatureTrailer [] := drop_length
  rw [splitPaymasterSignature]
  split_ifs with hv
  · have h62 : 62 ≤ data.length := by omega
    refine slice_yields (data.length - 8) data.length ?_
    split_ifs with hmagic
    · refine slice_yields (data.length - 10) (data.length - 9) ?_
      refine slice_yields (data.length - 9) (data.length - 8) ?_
      -- the two length bytes, as one number
      generalize hlength : part data (data.length - 10) (data.length - 9) ++
        part data (data.length - 9) (data.length - 8) = encoded
      dsimp only
      split_ifs with hlarge hpos
      · trivial
      · obtain ⟨stop, hstop⟩ : ∃ stop : Nat,
            (data.length : Int) - 10 - bigEndian encoded = stop :=
          ⟨data.length - 10 - bigEndian encoded, by omega⟩
        refine slice_yields stop (data.length - 10) ?_
        have hsignature : (part data stop (data.length - 10)).length = bigEndian encoded := by
          rw [length_part (by omega)]
          omega
        have hencoded : encoded.length = 2 := by
          rw [← hlength, length_append, length_part (by omega), length_part (by omega)]
          omega
        have htrailer : data.drop (data.length - 10) = encoded ++ paymasterSignatureMagic := by
          rw [← part_append (show data.length - 10 ≤ data.length - 9 by omega),
            ← part_append (show data.length - 9 ≤ data.length - 8 by omega), ← append_assoc,
            hlength, ← part_length (by omega), hmagic]
        have hne : part data stop (data.length - 10) ≠ [] := ne_nil_of_length_pos (by omega)
        refine ⟨stop, hstop, by omega, by omega, ?_, fun _ => hv.1⟩
        rw [signatureTrailer, if_neg hne, hsignature, ← hencoded, fixedBytes_bigEndian,
          append_assoc, ← htrailer, part_append (by omega)]
      · exact ⟨_, rfl, h52, le_rfl, hnone, absurd rfl⟩
    · exact ⟨_, rfl, h52, le_rfl, hnone, absurd rfl⟩
  · exact ⟨_, rfl, h52, le_rfl, hnone, absurd rfl⟩

/-- A zero paymaster that is not kept is a zero paymaster. -/
theorem kept_getD (address : Bytes 20) :
    (if address ≠ zeroAddress then some address else none).getD zeroAddress = address := by
  split_ifs with h
  · rfl
  · exact (not_not.mp h).symm

/-- `paymasterAndData` is split in range and without loss. -/
theorem normalizePaymaster_yields (version : Version) (data : List Byte) :
    Yields (fun fields => CopiesAddress bytesToAddress → fields.Split version data)
      (normalizePaymaster bytesToAddress version data) := by
  rw [normalizePaymaster]
  split_ifs with hempty hshort hversion
  · exact fun _ => ⟨.inl ⟨length_eq_zero_iff.mp hempty, rfl⟩, absurd rfl⟩
  · trivial
  · have h20 : 20 ≤ data.length := Nat.not_lt.mp (not_or.mp hshort).1
    refine slice_yields 0 20 ?_
    refine slice_yields 20 data.length fun hcopies => ?_
    refine ⟨.inr ⟨?_, absurd hversion⟩, absurd rfl⟩
    rw [PaymasterFields.bytes, kept_getD, hcopies.val (length_part h20), part_length h20]
    show data = part data 0 20 ++ (data.drop 20 ++ [])
    rw [append_nil, part_append (Nat.zero_le _)]
    rfl
  · have h52 : 52 ≤ data.length := Nat.not_lt.mp fun h => (not_or.mp hshort).2 ⟨hversion, h⟩
    refine slice_yields 0 20 ?_
    refine slice_yields 20 36 ?_
    refine slice_yields 36 52 ?_
    refine (splitPaymasterSignature_yields version h52).bind ?_
    rintro ⟨dataEnd, signature⟩ ⟨stop, rfl, hstart, hstop, htrailer, hv09⟩
    refine slice_yields 52 stop fun hcopies => ?_
    refine ⟨.inr ⟨?_, fun _ => ⟨rfl, rfl⟩⟩, hv09⟩
    rw [PaymasterFields.bytes, kept_getD, hcopies.val (length_part (by omega)),
      limitBytes_setBytes (length_part (by omega)), limitBytes_setBytes (length_part h52),
      ← htrailer, part_append hstart, part_append (by decide), part_append (by decide),
      part_append (by decide)]
    rfl

/-! ## Whole operations -/

variable {version : Version}

/-- What the two normalizations have in common stays in range. -/
theorem normalize_yields {op : WireFields} {post : Request → Prop}
    {request : InitFields → PaymasterFields → Request}
    (h : ∀ init paymaster, (CopiesAddress bytesToAddress → init.Split version op.initCode) →
      (CopiesAddress bytesToAddress → paymaster.Split version op.paymasterAndData) →
      post (request init paymaster)) :
    Yields post (normalize bytesToAddress version op request) := by
  refine (normalizeInitCode_yields bytesToAddress version op.initCode).bind fun init hinit => ?_
  refine (normalizePaymaster_yields bytesToAddress version op.paymasterAndData).bind
    fun paymaster hpaymaster => ?_
  have hvalid : Yields (fun _ => True) (validateRequest (request init paymaster)) := by
    rw [validateRequest]
    split
    · trivial
    · trivial
  exact hvalid.bind fun _ _ => h init paymaster hinit hpaymaster

/-- A word is put together from its two limits. -/
theorem word_split {word : List Byte} (h : word.length = 32) :
    word = limitBytes (setBytes (part word 0 16)) ++ limitBytes (setBytes (part word 16 32)) := by
  rw [limitBytes_setBytes (length_part (by omega)), limitBytes_setBytes (length_part (by omega)),
    ← h, part_length (by omega), part_append (Nat.zero_le _)]
  rfl

/-- **A packed operation** is normalized in range and without loss. -/
theorem normalizePacked_yields (version : Version) (op : PackedUserOperationWire) :
    Yields (fun request => Copied op request
        ∧ (CopiesAddress bytesToAddress → Rebuilds version op request))
      (normalizePacked bytesToAddress version op) := by
  have hlimits := op.accountGasLimits.property
  have hfees := op.gasFees.property
  refine slice_yields 0 16 ?_
  refine slice_yields 16 32 ?_
  refine slice_yields 0 16 ?_
  refine slice_yields 16 32 ?_
  refine normalize_yields bytesToAddress fun init paymaster hinit hpaymaster => ?_
  exact ⟨⟨rfl, rfl, rfl⟩,
    fun hcopies => ⟨⟨rfl, rfl, rfl⟩, hinit hcopies, word_split hlimits,
    word_split hfees, hpaymaster hcopies⟩⟩

/-- The fields that are copied determine a packed operation. -/
theorem Copied.unique {op op' : PackedUserOperationWire} {request : Request}
    (h : Copied op request) (h' : Copied op' request) : op = op' := by
  obtain ⟨hwire, hlimits, hfees⟩ := h
  obtain ⟨hwire', hlimits', hfees'⟩ := h'
  cases op
  cases op'
  simp_all [Subtype.ext_iff]

/-- **An operation of version 0.6** is copied in range. -/
theorem normalizeV06_yields (op : UserOperationV06Wire) :
    Yields (fun r => op = ⟨r.toWireFields, r.callGasLimit, r.verificationGasLimit, r.maxFeePerGas,
      r.maxPriorityFeePerGas⟩) (normalizeV06 bytesToAddress op) :=
  normalize_yields bytesToAddress fun _ _ _ _ => rfl

end Parts

/-- **Nothing is lost, and nothing is out of range.** -/
theorem normalize_lossless (bytesToAddress : List Byte → Bytes 20) :
    (∀ op op' request, normalizeV06 bytesToAddress op = .ok request →
      normalizeV06 bytesToAddress op' = .ok request → op = op')
    ∧ (∀ version op op' request, normalizePacked bytesToAddress version op = .ok request →
      normalizePacked bytesToAddress version op' = .ok request → op = op')
    ∧ (CopiesAddress bytesToAddress → ∀ version op request,
      normalizePacked bytesToAddress version op = .ok request → Rebuilds version op request)
    ∧ (∀ op, normalizeV06 bytesToAddress op ≠ .error .sliceBounds)
    ∧ ∀ version op, normalizePacked bytesToAddress version op ≠ .error .sliceBounds := by
  have hv06 := fun op => (normalizeV06_yields bytesToAddress op).and
  have hpacked := fun version op => (normalizePacked_yields bytesToAddress version op).and
  refine ⟨fun op op' request h h' => ?_, fun version op op' request h h' => ?_,
    fun hcopies version op request h => ((hpacked version op).2 request h).2 hcopies,
    fun op => (hv06 op).1, fun version op => (hpacked version op).1⟩
  · exact ((hv06 op).2 request h).trans ((hv06 op').2 request h').symm
  · exact ((hpacked version op).2 request h).1.unique ((hpacked version op').2 request h').1

/-- The last 20 bytes, with zeros in front of a short value. -/
def lastTwenty (bytes : List Byte) : Bytes 20 :=
  if h : bytes.length = 20 then ⟨bytes, h⟩
  else
    ⟨replicate (20 - bytes.length) 0 ++ bytes.drop (bytes.length - 20), by
      rw [length_append, length_replicate, length_drop]
      omega⟩

theorem lastTwenty_copies : CopiesAddress lastTwenty := fun _ h => dif_pos h

/-- An operation with a paymaster, its data and its signature. -/
def signedOperation : PackedUserOperationWire where
  sender := ⟨bytesOf (replicate 20 0xaa), rfl⟩
  nonce := some 7
  initCode := marker 2
  callData := []
  preVerificationGas := some 1
  paymasterAndData := bytesOf (replicate 52 1 ++ [5, 9, 0, 1]) ++ paymasterSignatureMagic
  signature := []
  accountGasLimits := ⟨bytesOf (replicate 32 2), rfl⟩
  gasFees := ⟨bytesOf (replicate 32 3), rfl⟩

/-- Its fields are split, and put together they are the operation. -/
theorem signedOperation_rebuilds :
    ∃ request, normalizePacked lastTwenty .v09 signedOperation = .ok request
      ∧ request.paymasterSignature = bytesOf [9] ∧ request.paymasterData = bytesOf [5]
      ∧ Rebuilds .v09 signedOperation request :=
  ⟨_, rfl, rfl, rfl, (normalize_lossless lastTwenty).2.2.1 lastTwenty_copies _ _ _ rfl⟩

end Erc4337
