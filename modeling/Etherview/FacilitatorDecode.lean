import Etherview.FacilitatorService
import Etherview.Hex
import Etherview.Texts

/-! # The identity of an authorization, as text

    `Service.decode` of `internal/facilitator/server.go`: what it accepts of a payment
    request, and the text that names the authorization in the journal.  A request is what
    the JSON decoder and the payload readers of the SDK read.  How addresses are read and
    written is a parameter (`AddressTexts`).  Texts that pass for an address are ASCII, where
    `strings.ToLower` is `String.toLower`.

    * `toLower_address` — every spelling of an address has the text of its bytes;
    * `authorizationID_eq_iff` — the identity that the model of the journal uses stands for
      this text;
    * `decode_identity_iff` — the identity is the network, the method and the nonce slot. -/

namespace Facilitator

open Hex Texts List Option String

/-! ## Requests -/

/-- `x402.PaymentRequirements`; of the extra members the two that are read, if they are
    texts, and the rest as one text. -/
structure PaymentRequirements where
  scheme : String
  network : Network
  asset : String
  amount : String
  payTo : String
  maxTimeoutSeconds : Int
  assetTransferMethod : Option String
  paymentFlow : Option String
  extra : String
deriving DecidableEq

/-- What the SDK reads of a payload of one method. -/
structure MethodPayload where
  payer : String
  nonce : String
  signature : String

/-- `x402.PaymentPayload`, with the answers of the SDK about its payload. -/
structure PaymentPayload where
  x402Version : Int
  accepted : PaymentRequirements
  extensions : Nat
  isEIP3009Payload : Bool
  isPermit2Payload : Bool
  payloadFromMap : Option MethodPayload
  permit2PayloadFromMap : Option MethodPayload

/-- `paymentRequest`. -/
structure WireRequest where
  x402Version : Int
  paymentPayload : PaymentPayload
  paymentRequirements : PaymentRequirements

/-! ## Texts -/

/-- Addresses in go-ethereum: `common.IsHexAddress`, `common.HexToAddress` and
    `Address.Hex`, and what is assumed of them.  Behind `0x`, the texts that pass are those of
    20 bytes, in digits of either case; they are read as these bytes, and bytes are written
    in digits of some case. -/
structure AddressTexts where
  isHexAddress : String → Bool
  hexToAddress : String → List Byte
  hex : List Byte → String
  isHexAddress_iff : ∀ digits, isHexAddress (String.ofList ('0' :: 'x' :: digits)) = true
    ↔ ∃ bytes, Hex.decode digits = some bytes ∧ bytes.length = 20
  hexToAddress_eq : ∀ raw bytes, parse raw = some bytes → bytes.length = 20 →
    hexToAddress raw = bytes
  toLower_hex : ∀ bytes, bytes.length = 20 → (hex bytes).toLower = text bytes

/-- `strings.EqualFold`. -/
def equalFold (a b : String) : Bool := a.toList.map Char.toLower = b.toList.map Char.toLower

/-- The text of an address other than the zero address. -/
def validAddress (addresses : AddressTexts) (raw : String) : Bool :=
  decide (raw.utf8ByteSize = 42 ∧ ['0', 'x'] <+: raw.toList) && addresses.isHexAddress raw
    && decide (addresses.hexToAddress raw ≠ replicate 20 0)

/-- The number of a network `eip155:N`, written in canonical decimal digits. -/
def networkID (network : Network) : Option Nat := match network.toList with
  | 'e' :: 'i' :: 'p' :: '1' :: '5' :: '5' :: ':' :: raw =>
    (setString 10 raw).bind fun n =>
      if 0 < n ∧ n < 2 ^ 256 ∧ toString n.toNat = String.ofList raw then some n.toNat else none
  | _ => none

/-! ## The service -/

/-- A token that the service takes, and by which methods. -/
structure TokenConfig where
  address : String
  methods : List String

/-- What `decode` reads of a chain. -/
structure DecodeChain where
  tokens : List TokenConfig
  recipients : List String

/-- The chains of a validated configuration. -/
structure Chains where
  chain : Network → Option DecodeChain
  valid : ∀ network, (chain network).isSome → (networkID network).isSome

/-- `evm.PERMIT2Address`. -/
def permit2Address : String := "0x000000000022D473030F116dDEE9F6B43aC78BA3"

/-- The nonce of an EIP-3009 authorization, as it is stored. -/
def eip3009Nonce (nonce : String) : Option String :=
  ((decode (trimHexPrefix nonce.toList)).filter fun bytes => bytes.length = 32).map
    fun bytes => String.ofList (encode bytes)

/-- The nonce of a Permit2 authorization, as it is stored. -/
def permit2Nonce (nonce : String) : Option String :=
  ((setString 10 nonce.toList).filter fun n => 0 ≤ n ∧ n < 2 ^ 256).map fun n =>
    toString n.toNat

/-- The switch on the method: the payload and the stored nonce. -/
def methodPayload (method : String) (payload : PaymentPayload) : Option (MethodPayload × String) :=
  if method = "eip3009" then
    payload.payloadFromMap.bind fun p => (eip3009Nonce p.nonce).map fun nonce => (p, nonce)
  else if method = "permit2" then
    payload.permit2PayloadFromMap.bind fun p => (permit2Nonce p.nonce).map fun nonce => (p, nonce)
  else none

section Decode

variable (addresses : AddressTexts)

/-- The checks of `decode` on the requirements. -/
def requirementsAccepted (ch : DecodeChain) (payload : PaymentPayload)
    (req : PaymentRequirements) : Bool :=
  decide (0 < req.maxTimeoutSeconds ∧ req.maxTimeoutSeconds ≤ 3600 ∧ req.scheme = "exact") &&
    validAddress addresses req.asset && validAddress addresses req.payTo &&
    decide (payload.extensions = 0 ∧ payload.accepted = req) &&
    (setString 10 req.amount.toList).any (fun amount =>
      decide (0 < amount ∧ amount < 2 ^ 256 ∧ toString amount.toNat = req.amount)) &&
    decide (req.paymentFlow.getD "" = "authorization") &&
    ch.tokens.any (fun token => equalFold token.address req.asset &&
      token.methods.contains (req.assetTransferMethod.getD "")) &&
    ch.recipients.any fun recipient => equalFold recipient req.payTo

/-- `decode`, from the decoded request on: the identity and the payer. -/
def Chains.decode (chains : Chains) (request : WireRequest) : Option (String × String) := do
  let req := request.paymentRequirements
  let payload := request.paymentPayload
  let method := req.assetTransferMethod.getD ""
  let ch ← chains.chain req.network
  if request.x402Version = 2 ∧ payload.x402Version = 2 ∧
      requirementsAccepted addresses ch payload req = true ∧
      payload.isEIP3009Payload = decide (method = "eip3009") ∧
      payload.isPermit2Payload = decide (method = "permit2") then do
    let (p, nonce) ← methodPayload method payload
    let signature ← Hex.decode (trimHexPrefix p.signature.toList)
    -- the contract that keeps the nonce
    let scope := if method = "permit2" then permit2Address.toLower
      else (addresses.hex (addresses.hexToAddress req.asset)).toLower
    if signature.length = 65 ∧ validAddress addresses p.payer = true then
      some (req.network ++ ":" ++ method ++ ":" ++ scope ++ ":" ++ p.payer.toLower ++ ":"
        ++ nonce, addresses.hex (addresses.hexToAddress p.payer))
    else none
  else none

end Decode

/-! ## Spellings -/

/-- A hexadecimal digit in lower case is the one it encodes to. -/
theorem toLower_digit {c : Char} {d : Fin 16} (h : digitValue c = some d) :
    c.toLower = digitChar d := by
  have hsmall : ∀ n < 103, ∀ d, digitValue (Char.ofNat n) = some d →
      (Char.ofNat n).toLower = digitChar d := by decide
  have hlt : c.toNat < 103 := by
    rw [digitValue] at h
    split_ifs at h with h9 hf hF
    · exact (show c.toNat ≤ 57 from h9.2).trans_lt (by decide)
    · exact (show c.toNat ≤ 102 from hf.2).trans_lt (by decide)
    · exact (show c.toNat ≤ 70 from hF.2).trans_lt (by decide)
  rw [← Char.ofNat_toNat c] at h ⊢
  exact hsmall _ hlt d h

/-- A hexadecimal text in lower case is the encoding of its bytes. -/
theorem toLower_digits {digits : List Char} {bytes : List Byte}
    (h : Hex.decode digits = some bytes) : digits.map Char.toLower = encode bytes := by
  induction digits using Hex.decode.induct generalizing bytes with
  | case1 =>
    cases h
    rfl
  | case2 c => cases h
  | case3 a b rest ih =>
    obtain ⟨x, hx, h⟩ := bind_eq_some_iff.mp h
    obtain ⟨y, hy, h⟩ := bind_eq_some_iff.mp h
    obtain ⟨bytes, hrest, h⟩ := bind_eq_some_iff.mp h
    cases h
    have hx' : high (join x y) = x := Fin.ext (show (16 * x.val + y.val) / 16 = x.val by omega)
    have hy' : low (join x y) = y := Fin.ext (show (16 * x.val + y.val) % 16 = y.val by omega)
    rw [encode, hx', hy', map_cons, map_cons, toLower_digit hx, toLower_digit hy, ih hrest]

section Spellings

variable {addresses : AddressTexts} {raw : String}

/-- A valid address is the text of 20 bytes, and read as them. -/
theorem parse_of_validAddress (h : validAddress addresses raw = true) :
    parse raw = some (addresses.hexToAddress raw)
      ∧ (addresses.hexToAddress raw).length = 20 := by
  rw [validAddress, Bool.and_eq_true, Bool.and_eq_true, decide_eq_true_eq] at h
  obtain ⟨⟨⟨-, digits, hraw⟩, hhex⟩, -⟩ := h
  obtain rfl : raw = String.ofList ('0' :: 'x' :: digits) := by
    rw [← ofList_toList (s := raw), ← hraw]
    rfl
  obtain ⟨bytes, hdecode, hlength⟩ := (addresses.isHexAddress_iff digits).mp hhex
  have hparse : parse (String.ofList ('0' :: 'x' :: digits)) = some bytes := by
    rw [parse, toList_ofList]
    exact hdecode
  rw [addresses.hexToAddress_eq _ bytes hparse hlength]
  exact ⟨hparse, hlength⟩

/-- **Every spelling of an address** has the text of its bytes in lower case. -/
theorem toLower_address (h : validAddress addresses raw = true) :
    raw.toLower = text (addresses.hexToAddress raw) := by
  obtain ⟨h, -⟩ := parse_of_validAddress h
  rw [parse] at h
  split at h
  · rename_i digits hraw
    refine String.toList_inj.mp ?_
    rw [String.toLower, String.toList_map, hraw, text, String.toList_ofList, map_cons,
      map_cons, toLower_digits h]
    rfl
  · cases h

end Spellings

/-! ## Identities -/

/-- The nonce that an authorization consumes on its chain: one of the token contract, or one
    of the payer at the Permit2 contract, whatever the token. -/
inductive NonceSlot where
  | eip3009 (token payer nonce : List Byte)
  | permit2 (payer : List Byte) (nonce : Nat)

/-- The transfer method that a request names. -/
def WireRequest.method (request : WireRequest) : String :=
  request.paymentRequirements.assetTransferMethod.getD ""

/-- The nonce slot that a request names. -/
def WireRequest.nonceSlot (addresses : AddressTexts) (request : WireRequest) :
    Option NonceSlot :=
  if request.method = "permit2" then do
    let p ← request.paymentPayload.permit2PayloadFromMap
    let nonce ← setString 10 p.nonce.toList
    some (.permit2 (addresses.hexToAddress p.payer) nonce.toNat)
  else do
    let p ← request.paymentPayload.payloadFromMap
    let nonce ← Hex.decode (trimHexPrefix p.nonce.toList)
    some (.eip3009 (addresses.hexToAddress request.paymentRequirements.asset)
      (addresses.hexToAddress p.payer) nonce)

/-- The sizes of the parts: addresses of 20 bytes and a nonce of 32. -/
def NonceSlot.Sized : NonceSlot → Prop
  | .eip3009 token payer nonce => token.length = 20 ∧ payer.length = 20 ∧ nonce.length = 32
  | .permit2 payer _ => payer.length = 20

/-- The parts of the identity behind the network. -/
def NonceSlot.parts : NonceSlot → List String
  | .eip3009 token payer nonce => ["eip3009", text token, text payer, String.ofList (encode nonce)]
  | .permit2 payer nonce => ["permit2", permit2Address.toLower, text payer, toString nonce]

/-- No part of an identity has a colon. -/
theorem colon_not_mem_parts (number : Nat) (slot : NonceSlot) :
    ∀ part ∈ "eip155" :: toString number :: slot.parts, ':' ∉ part.toList := by
  have hencode : ∀ bytes, ':' ∉ encode bytes := by
    intro bytes h
    obtain ⟨d, hd⟩ := mem_encode h
    revert d
    decide
  have hdecimal : ∀ n : Nat, ':' ∉ Nat.toDigits 10 n :=
    fun n h => absurd (Nat.isDigit_of_mem_toDigits (by decide) (by decide) h) (by decide)
  have hpermit2 : ':' ∉ permit2Address.toLower.toList := by decide +kernel
  cases slot with
  | eip3009 token payer nonce => simp [NonceSlot.parts, text, hencode, hdecimal]
  | permit2 payer nonce => simp [NonceSlot.parts, text, hencode, hdecimal, hpermit2]

theorem encode_injective : Function.Injective encode := by
  intro a b h
  have hdecode := congrArg Hex.decode h
  rwa [decode_encode, decode_encode, some.injEq] at hdecode

theorem NonceSlot.parts_injective {slot slot' : NonceSlot} (h : slot.parts = slot'.parts) :
    slot = slot' := by
  cases slot <;> cases slot' <;>
    simp_all [parts, text, ofList_inj, encode_injective.eq_iff]

/-- A network is its number. -/
theorem networkID_eq {network : Network} {number : Nat} (h : networkID network = some number) :
    network = "eip155:" ++ toString number := by
  rw [networkID] at h
  split at h
  · rename_i raw hnetwork
    obtain ⟨n, -, h⟩ := bind_eq_some_iff.mp h
    split_ifs at h with hn
    cases h
    refine toList_inj.mp ?_
    rw [hn.2.2, toList_append, @toList_ofList raw, hnetwork]
    rfl
  · cases h

section Identity

variable {addresses : AddressTexts} {chains : Chains} {request request' : WireRequest}
  {identity identity' payer payer' : String}

/-- What the switch on the method finds for a valid payer and asset: a nonce slot, whose
    parts are joined in the identity. -/
theorem methodPayload_slot {p : MethodPayload} {nonce : String}
    (hp : methodPayload request.method request.paymentPayload = some (p, nonce))
    (hpayer : validAddress addresses p.payer = true)
    (hasset : validAddress addresses request.paymentRequirements.asset = true) :
    ∃ slot, request.nonceSlot addresses = some slot ∧ slot.Sized ∧ slot.parts
      = [request.method, if request.method = "permit2" then permit2Address.toLower
          else (addresses.hex
            (addresses.hexToAddress request.paymentRequirements.asset)).toLower,
        p.payer.toLower, nonce] := by
  have hsized := (parse_of_validAddress hpayer).2
  have hassetSized := (parse_of_validAddress hasset).2
  rw [toLower_address hpayer, addresses.toLower_hex _ hassetSized, WireRequest.nonceSlot]
  rw [methodPayload] at hp
  split_ifs at hp with heip3009 hpermit2
  · obtain ⟨p', hp', hp⟩ := bind_eq_some_iff.mp hp
    obtain ⟨_, hnonce, ⟨⟩⟩ := map_eq_some_iff.mp hp
    obtain ⟨bytes, hbytes, rfl⟩ := map_eq_some_iff.mp hnonce
    obtain ⟨hbytes, hlength⟩ := filter_eq_some_iff.mp hbytes
    have hne : request.method ≠ "permit2" := heip3009 ▸ (by decide)
    refine ⟨.eip3009 _ _ bytes, ?_, ⟨hassetSized, hsized, of_decide_eq_true hlength⟩, ?_⟩
    · rw [if_neg hne, hp']
      simp only [bind_eq_bind, bind_some, hbytes]
    · rw [if_neg hne, heip3009]
      rfl
  · obtain ⟨p', hp', hp⟩ := bind_eq_some_iff.mp hp
    obtain ⟨_, hnonce, ⟨⟩⟩ := map_eq_some_iff.mp hp
    obtain ⟨n, hn, rfl⟩ := map_eq_some_iff.mp hnonce
    obtain ⟨hn, -⟩ := filter_eq_some_iff.mp hn
    refine ⟨.permit2 _ n.toNat, ?_, hsized, ?_⟩
    · rw [if_pos hpermit2, hp']
      simp only [bind_eq_bind, bind_some, hn]
    · rw [if_pos hpermit2, hpermit2]
      rfl

/-- What an accepted request is identified by. -/
theorem Chains.decode_eq (h : chains.decode addresses request = some (identity, payer)) :
    ∃ (number : Nat) (slot : NonceSlot),
      request.paymentRequirements.network = "eip155:" ++ toString number ∧
      request.nonceSlot addresses = some slot ∧ slot.Sized ∧
      slot.parts.head? = some request.method ∧
      identity = ":".intercalate ("eip155" :: toString number :: slot.parts) := by
  obtain ⟨ch, hch, h⟩ := bind_eq_some_iff.mp h
  obtain ⟨hchecks, h⟩ := ite_none_right_eq_some.mp h
  obtain ⟨⟨p, nonce⟩, hp, h⟩ := bind_eq_some_iff.mp h
  obtain ⟨signature, -, h⟩ := bind_eq_some_iff.mp h
  obtain ⟨hpayer, h⟩ := ite_none_right_eq_some.mp h
  obtain ⟨rfl, -⟩ := Prod.mk.inj (some.inj h)
  obtain ⟨-, -, haccepted, -⟩ := hchecks
  have hasset : validAddress addresses request.paymentRequirements.asset = true := by
    simp only [requirementsAccepted, Bool.and_eq_true] at haccepted
    exact haccepted.1.1.1.1.1.1.2
  obtain ⟨number, hnumber⟩ := isSome_iff_exists.mp (chains.valid _ (isSome_of_mem hch))
  obtain ⟨slot, hslot, hsized, hparts⟩ := methodPayload_slot hp hpayer.2 hasset
  have hprefix : "eip155:" = "eip155" ++ ":" := by decide
  refine ⟨number, slot, networkID_eq hnumber, hslot, hsized, by rw [hparts]; rfl, ?_⟩
  rw [hparts, networkID_eq hnumber, hprefix]
  rfl

/-- One network, written in two ways. -/
theorem network_injective {number number' : Nat}
    (h : "eip155:" ++ toString number = "eip155:" ++ toString number') :
    toString number = toString number' := by
  have hlist := congrArg String.toList h
  rw [String.toList_append, String.toList_append] at hlist
  exact String.toList_inj.mp (append_cancel_left hlist)

/-- Two joined identities are one exactly if the networks and the nonce slots are. -/
theorem identity_eq_iff {number number' : Nat} {slot slot' : NonceSlot} :
    ":".intercalate ("eip155" :: toString number :: slot.parts)
        = ":".intercalate ("eip155" :: toString number' :: slot'.parts)
      ↔ "eip155:" ++ toString number = "eip155:" ++ toString number' ∧ slot = slot' := by
  constructor
  · intro heq
    have hparts := intercalate_injective rfl (cons_ne_nil _ _) (cons_ne_nil _ _)
      (colon_not_mem_parts number slot) (colon_not_mem_parts number' slot') heq
    injection hparts with _ hparts
    injection hparts with hnumber hparts
    rw [hnumber, NonceSlot.parts_injective hparts]
    exact ⟨rfl, rfl⟩
  · rintro ⟨hnetworks, rfl⟩
    rw [network_injective hnetworks]

/-! ### The identity of the journal -/

/-- The address that some bytes are. -/
def addressOfBytes (bytes : List Byte) : Address := BitVec.ofNat 160 (bigEndian bytes)

/-- The payment takes the nonce of a slot. -/
def PaymentRequest.Consumes (payment : PaymentRequest) : NonceSlot → Prop
  | .eip3009 token payer nonce => payment.method = .eip3009
    ∧ payment.asset = addressOfBytes token ∧ payment.payer = addressOfBytes payer
    ∧ payment.nonce = bigEndian nonce
  | .permit2 payer nonce => payment.method = .permit2
    ∧ payment.payer = addressOfBytes payer ∧ payment.nonce = nonce

/-- A payment of the journal's model that a request stands for. -/
structure WireRequest.StandsFor (addresses : AddressTexts) (request : WireRequest)
    (payment : PaymentRequest) : Prop where
  network : payment.network = request.paymentRequirements.network
  consumes : ∀ slot ∈ request.nonceSlot addresses, payment.Consumes slot

theorem addressOfBytes_injective {a b : List Byte} (ha : a.length = 20) (hb : b.length = 20)
    (h : addressOfBytes a = addressOfBytes b) : a = b := by
  have hlt := bigEndian_lt a
  have hlt' := bigEndian_lt b
  have hpow : 256 ^ 20 = 2 ^ 160 := by norm_num
  rw [ha, hpow] at hlt
  rw [hb, hpow] at hlt'
  have hnat := congrArg BitVec.toNat h
  rw [addressOfBytes, addressOfBytes, BitVec.toNat_ofNat, BitVec.toNat_ofNat,
    Nat.mod_eq_of_lt hlt, Nat.mod_eq_of_lt hlt'] at hnat
  exact bigEndian_injective (ha.trans hb.symm) hnat

/-- The journal's identities of two payments are one exactly if the payments are on one
    network and take the nonce of one slot. -/
theorem authorizationID_eq_iff_slot {service : Service} {payment payment' : PaymentRequest}
    {slot slot' : NonceSlot} (hsized : slot.Sized) (hsized' : slot'.Sized)
    (h : payment.Consumes slot) (h' : payment'.Consumes slot') :
    service.authorizationID payment = service.authorizationID payment'
      ↔ payment.network = payment'.network ∧ slot = slot' := by
  rw [Service.authorizationID, Service.authorizationID, AuthorizationID.mk.injEq]
  cases slot with
  | eip3009 token payer nonce =>
    obtain ⟨hmethod, hasset, hpayer, hnonce⟩ := h
    cases slot' with
    | eip3009 token' payer' nonce' =>
      obtain ⟨hmethod', hasset', hpayer', hnonce'⟩ := h'
      rw [hmethod, hmethod', hpayer, hpayer', hnonce, hnonce']
      simp only [hasset, hasset', true_and, NonceSlot.eip3009.injEq]
      refine and_congr_right fun _ => ⟨?_, ?_⟩
      · rintro ⟨htoken, hpayer, hnonce⟩
        exact ⟨addressOfBytes_injective hsized.1 hsized'.1 htoken,
          addressOfBytes_injective hsized.2.1 hsized'.2.1 hpayer,
          bigEndian_injective (hsized.2.2.trans hsized'.2.2.symm) hnonce⟩
      · rintro ⟨rfl, rfl, rfl⟩
        exact ⟨rfl, rfl, rfl⟩
    | permit2 payer' nonce' =>
      rw [hmethod, h'.1]
      exact iff_of_false (fun heq => by cases heq.2.1) (fun heq => by cases heq.2)
  | permit2 payer nonce =>
    obtain ⟨hmethod, hpayer, hnonce⟩ := h
    cases slot' with
    | eip3009 token' payer' nonce' =>
      rw [hmethod, h'.1]
      exact iff_of_false (fun heq => by cases heq.2.1) (fun heq => by cases heq.2)
    | permit2 payer' nonce' =>
      obtain ⟨hmethod', hpayer', hnonce'⟩ := h'
      rw [hmethod, hmethod', hpayer, hpayer', hnonce, hnonce']
      -- Permit2 keeps nonces by owner, whatever the token
      simp only [true_and, NonceSlot.permit2.injEq]
      refine and_congr_right fun _ => and_congr_left fun _ => ⟨?_, ?_⟩
      · exact addressOfBytes_injective hsized hsized'
      · rintro rfl
        rfl

/-- **The journal's identity is the text**: two accepted requests have one identity in the
    text of `decode` exactly if the payments they stand for have one in the journal. -/
theorem authorizationID_eq_iff (service : Service) {payment payment' : PaymentRequest}
    (h : chains.decode addresses request = some (identity, payer))
    (h' : chains.decode addresses request' = some (identity', payer'))
    (hpayment : request.StandsFor addresses payment)
    (hpayment' : request'.StandsFor addresses payment') :
    service.authorizationID payment = service.authorizationID payment'
      ↔ identity = identity' := by
  obtain ⟨number, slot, hnetwork, hslot, hsized, -, rfl⟩ := Chains.decode_eq h
  obtain ⟨number', slot', hnetwork', hslot', hsized', -, rfl⟩ := Chains.decode_eq h'
  rw [authorizationID_eq_iff_slot hsized hsized' (hpayment.consumes slot hslot)
    (hpayment'.consumes slot' hslot'), hpayment.network, hpayment'.network, hnetwork,
    hnetwork', identity_eq_iff]

end Identity

/-! ### Main result -/

/-- **Two accepted requests have one identity** exactly if they name the same network, the
    same method and the same nonce on the chain, however these are spelt. -/
theorem decode_identity_iff (addresses : AddressTexts) (chains : Chains)
    (request request' : WireRequest) (identity identity' payer payer' : String)
    (h : chains.decode addresses request = some (identity, payer))
    (h' : chains.decode addresses request' = some (identity', payer')) :
    identity = identity' ↔
      request.paymentRequirements.network = request'.paymentRequirements.network ∧
        request.method = request'.method ∧
        request.nonceSlot addresses = request'.nonceSlot addresses := by
  obtain ⟨number, slot, hnetwork, hslot, -, hmethod, rfl⟩ := Chains.decode_eq h
  obtain ⟨number', slot', hnetwork', hslot', -, hmethod', rfl⟩ := Chains.decode_eq h'
  rw [hslot, hslot', hnetwork, hnetwork', ← Option.some.injEq request.method, ← hmethod,
    ← hmethod', identity_eq_iff, Option.some.injEq]
  constructor
  · rintro ⟨hnetworks, rfl⟩
    exact ⟨hnetworks, rfl, rfl⟩
  · rintro ⟨hnetworks, -, hslots⟩
    exact ⟨hnetworks, hslots⟩

/-! ### A payment in two spellings -/

theorem isHexAddress_eq (digits : List Char) :
    ((parse (String.ofList ('0' :: 'x' :: digits))).any fun bytes => decide (bytes.length = 20))
        = true
      ↔ ∃ bytes, Hex.decode digits = some bytes ∧ bytes.length = 20 := by
  rw [parse, toList_ofList, Option.any_eq_true]
  exact exists_congr fun bytes => and_congr_right' decide_eq_true_iff

theorem toLower_text (bytes : List Byte) : (text bytes).toLower = text bytes := by
  refine String.toList_inj.mp ?_
  rw [String.toLower, String.toList_map, text, String.toList_ofList, map_cons, map_cons,
    toLower_digits (decode_encode bytes)]
  rfl

/-- Addresses written in lower case. -/
def lowerCase : AddressTexts where
  isHexAddress raw := (parse raw).any fun bytes => decide (bytes.length = 20)
  hexToAddress raw := (parse raw).getD []
  hex := text
  isHexAddress_iff := isHexAddress_eq
  hexToAddress_eq _ _ hparse _ := by rw [hparse, getD_some]
  toLower_hex bytes _ := toLower_text bytes

/-- An address of one digit. -/
def addressOf (digit : Char) : String := String.ofList ('0' :: 'x' :: List.replicate 40 digit)

/-- A payment by Permit2 to one recipient, in some spelling. -/
def permit2Request (payer nonce : String) : WireRequest :=
  let req : PaymentRequirements := ⟨"exact", "eip155:1", addressOf '1', "5", addressOf '2', 60,
    some "permit2", some "authorization", ""⟩
  ⟨2,
    ⟨2, req, 0, false, true, none,
    some ⟨payer, nonce, String.ofList (List.replicate 130 'F')⟩⟩,
    req⟩

/-- A service of one chain, token and recipient. -/
def oneChain : Chains where
  chain network :=
    if network = "eip155:1" then some ⟨[⟨addressOf '1', ["permit2"]⟩], [addressOf '2']⟩
    else none
  valid network h := by
    split_ifs at h with heq
    · subst heq
      decide +kernel
    · cases h

/-- The letter case of the payer, a plus sign and leading zeros change nothing. -/
theorem decode_identity_respelt :
    (permit2Request (addressOf 'a') "7").nonceSlot lowerCase =
      (permit2Request (addressOf 'A') "+007").nonceSlot lowerCase :=
  ((decode_identity_iff lowerCase oneChain (permit2Request (addressOf 'a') "7")
    (permit2Request (addressOf 'A') "+007")
    ("eip155:1:permit2:0x000000000022d473030f116ddee9f6b43ac78ba3:" ++ addressOf 'a' ++ ":7") _
    (addressOf 'a') (addressOf 'a') (by decide +kernel) (by decide +kernel)).mp
    rfl).2.2

end Facilitator
