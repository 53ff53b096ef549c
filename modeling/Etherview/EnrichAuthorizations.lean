import Etherview.EnrichStateDiff

/-! # Authorizations seen through a state difference

    EIP-7702 on a full state: the sender's nonce is incremented, the authorizations are
    applied in order, and the execution that follows never decreases a nonce.  The
    replay of `EnrichStateDiff` sees the same transaction through the accounts that the
    transaction changed; an account it left alone looks like an empty one.

    `evidence_exact_iff` says when this does not matter: the replay reports the verdicts
    of the rules exactly when no authorization that is looked up meets an unchanged
    authority with foreign code or with nonce 0 on the authorization, and the execution
    leaves the code of applied authorities alone. -/

namespace Enrich

open Store MapUpdate Hex Transact List Option Finmap Function

/-! ## The rules -/

/-- An account of the full state. -/
structure Account (σ : Type) where
  balance : Nat
  nonce : Uint64
  code : List Byte
  storage : σ
deriving DecidableEq

/-- The part of an account that the evidence records. -/
def Account.view {σ : Type} (account : Account σ) : StateAccountEvidence :=
  ⟨account.nonce, account.code⟩

/-- A full state. -/
abbrev State (σ : Type) := Address → Account σ

/-- What the rules say about an authorization. -/
inductive Verdict where
  | applied (authority : Address)
  | skipped (reason : SkipReason)
deriving DecidableEq, Repr

/-- Status and skip reason of a verdict. -/
def Verdict.status : Verdict → ApplicationStatus × SkipReason
  | .applied _ => (.applied, .none)
  | .skipped reason => (.skipped, reason)

/-- Status and skip reason of a result. -/
def AuthorizationResult.status {G : Type} (result : AuthorizationResult G) :
    ApplicationStatus × SkipReason := (result.applicationStatus, result.skipReason)

/-- Code that an authorization may replace: none, or a delegation. -/
def Replaceable (code : List Byte) : Prop :=
  code = [] ∨ ∃ address, code = delegation address

variable {code : List Byte}

/-- A delegation is known by its length and its first bytes. -/
theorem exists_delegation_iff :
    (∃ address, code = delegation address) ↔ code.length = 23
      ∧ code.take 3 = [239, 1, 0] := by
  constructor
  · rintro ⟨address, rfl⟩
    refine ⟨?_, rfl⟩
    rw [delegation, length_append, address.property]
    rfl
  · rintro ⟨hlength, hfront⟩
    refine ⟨⟨code.drop 3, by rw [length_drop, hlength]⟩, ?_⟩
    rw [delegation, ← hfront]
    exact (take_append_drop 3 code).symm

instance (code : List Byte) : Decidable (Replaceable code) :=
  decidable_of_iff (code = [] ∨ (code.length = 23 ∧ code.take 3 = [239, 1, 0]))
    (or_congr_right exists_delegation_iff.symm)

/-- The check of the replay: code that is not replaceable is foreign. -/
theorem replaceable_iff (delegations : Delegations) : Replaceable code
    ↔ ¬ (code ≠ [] ∧ (delegations.parseDelegation code).isNone = true) := by
  have hsome : (∃ address, code = delegation address)
      ↔ (delegations.parseDelegation code).isNone ≠ true := by
    rw [ne_eq, isNone_iff_eq_none, ← ne_eq, ne_none_iff_exists']
    exact exists_congr fun address => (delegations.parseDelegation_eq_some code address).symm
  rw [Replaceable, hsome, not_and_or, not_not]

section Rules

variable {G H σ : Type} (authority : SetCodeAuthorization G → Option Address) (chainID : Nat)

/-- An authorization whose authority is looked up: it is for this chain, its nonce can be
    incremented, and its signature recovers. -/
def Consults (auth : SetCodeAuthorization G) (address : Address) : Prop :=
  (auth.chainID = 0 ∨ auth.chainID = chainID) ∧ auth.nonce < maxUint64 ∧
    authority auth = some address

/-- The verdict of EIP-7702 about one authorization. -/
def rule (S : State σ) (auth : SetCodeAuthorization G) : Verdict :=
  if auth.chainID = 0 ∨ auth.chainID = chainID then
    if auth.nonce < maxUint64 then
      match authority auth with
      | none => .skipped .invalidSignature
      | some address =>
        if Replaceable (S address).code then
          if (S address).nonce = auth.nonce then .applied address
          else .skipped .nonceMismatch
        else .skipped .authorityHasCode
    else .skipped .nonceOverflow
  else .skipped .wrongChainID

/-- The state after one authorization. -/
def apply (S : State σ) (auth : SetCodeAuthorization G) : Verdict → State σ
  | .applied address => Function.update S address { S address with
        nonce := (S address).nonce + 1
        code := if auth.address = zeroAddress then [] else delegation auth.address }
  | .skipped _ => S

/-- The authorizations in order. -/
def rules : List (SetCodeAuthorization G) → State σ → List Verdict × State σ
  | [], S => ([], S)
  | auth :: rest, S =>
    let verdict := rule authority chainID S auth
    let (verdicts, S) := rules rest (apply S auth verdict)
    (verdict :: verdicts, S)

/-- The increment of the sender's nonce; there is no transaction from a sender that has
    used all nonces. -/
def bump (S : State σ) (sender : Address) : Option (State σ) :=
  if (S sender).nonce = maxUint64 then none
  else some (Function.update S sender { S sender with nonce := (S sender).nonce + 1 })

variable {authority chainID} {auth : SetCodeAuthorization G} {address : Address}
  {delegations : Delegations}

theorem rule_of_consults (h : Consults authority chainID auth address) (S : State σ) :
    rule authority chainID S auth = if Replaceable (S address).code then
        if (S address).nonce = auth.nonce then .applied address else .skipped .nonceMismatch
      else .skipped .authorityHasCode := by
  obtain ⟨hchain, hnonce, hauthority⟩ := h
  rw [rule, if_pos hchain, if_pos hnonce, hauthority]

/-- The same lookup in the replay. -/
theorem deriveAuthorization_of_consults (h : Consults authority chainID auth address) (index : Nat)
    (state : Map Address StateAccountEvidence) :
    deriveAuthorization delegations authority chainID index auth state =
      if Replaceable (accountAt state address).code then
        if (accountAt state address).nonce = auth.nonce then
          (⟨index, auth, some address, .valid, .applied, .none⟩,
            state.insert address (delegated delegations auth))
        else (⟨index, auth, some address, .valid, .skipped, .nonceMismatch⟩, state)
      else (⟨index, auth, some address, .valid, .skipped, .authorityHasCode⟩, state) := by
  obtain ⟨hchain, hnonce, hauthority⟩ := h
  have hthis : ¬ (auth.chainID ≠ 0 ∧ auth.chainID ≠ chainID) := by
    rintro ⟨hzero, hother⟩
    exact hchain.elim hzero hother
  rw [deriveAuthorization, if_neg hthis, if_neg hnonce.ne, hauthority]
  dsimp only
  by_cases hcode : Replaceable (accountAt state address).code
  · rw [if_neg ((replaceable_iff delegations).mp hcode), if_pos hcode]
    by_cases hmatch : (accountAt state address).nonce = auth.nonce
    · rw [if_neg (not_not.mpr hmatch), if_pos hmatch]
    · rw [if_pos hmatch, if_neg hmatch]
  · rw [if_pos (not_not.mp (mt (replaceable_iff delegations).mpr hcode)), if_neg hcode]

/-- An authorization that consults nobody is skipped for a reason of its own. -/
theorem skipped_of_not_consults (h : ∀ address, ¬ Consults authority chainID auth address) :
    ∃ reason, (∀ S : State σ, rule authority chainID S auth = .skipped reason) ∧
      ∀ (delegations : Delegations) index state, ∃ status,
        deriveAuthorization delegations authority chainID index auth state
          = (⟨index, auth, none, status, .skipped, reason⟩, state) := by
  by_cases hchain : auth.chainID = 0 ∨ auth.chainID = chainID
  · have hthis : ¬ (auth.chainID ≠ 0 ∧ auth.chainID ≠ chainID) := by
      rintro ⟨hzero, hother⟩
      exact hchain.elim hzero hother
    by_cases hnonce : auth.nonce < maxUint64
    · cases hauthority : authority auth with
      | none =>
        refine ⟨.invalidSignature, fun S => ?_, fun delegations index state =>
          ⟨.invalid, ?_⟩⟩
        · rw [rule, if_pos hchain, if_pos hnonce, hauthority]
        · rw [deriveAuthorization, if_neg hthis, if_neg hnonce.ne, hauthority]
      | some address => exact absurd ⟨hchain, hnonce, hauthority⟩ (h address)
    · have hmax : auth.nonce = maxUint64 := le_antisymm (le_maxUint64 _) (not_lt.mp hnonce)
      refine ⟨.nonceOverflow, fun S => ?_, fun delegations index state =>
        ⟨.unavailable, ?_⟩⟩
      · rw [rule, if_pos hchain, if_neg hnonce]
      · rw [deriveAuthorization, if_neg hthis, if_pos hmax]
  · refine ⟨.wrongChainID, fun S => ?_, fun delegations index state => ⟨.unavailable, ?_⟩⟩
    · rw [rule, if_neg hchain]
    · rw [deriveAuthorization, if_pos (not_or.mp hchain)]

variable {S : State σ}

/-- An applied authorization consulted its authority, with the right nonce. -/
theorem consults_of_applied (h : rule authority chainID S auth = .applied address) :
    Consults authority chainID auth address ∧ (S address).nonce = auth.nonce := by
  by_cases hconsults : ∃ found, Consults authority chainID auth found
  · obtain ⟨found, hfound⟩ := hconsults
    rw [rule_of_consults hfound] at h
    split_ifs at h with hcode hmatch
    cases h
    exact ⟨hfound, hmatch⟩
  · obtain ⟨reason, hrule, -⟩ := skipped_of_not_consults (σ := σ) (not_exists.mp hconsults)
    rw [hrule] at h
    cases h

/-- An applied authorization increments the nonce of its authority and of nobody else. -/
theorem nonce_apply (h : rule authority chainID S auth = .applied address) :
    (S address).nonce < (apply S auth (.applied address) address).nonce ∧
      ∀ other, (S other).nonce ≤ (apply S auth (.applied address) other).nonce := by
  obtain ⟨⟨-, hnonce, -⟩, hmatch⟩ := consults_of_applied h
  have hgrow : (S address).nonce < (S address).nonce + 1 := by
    rw [Fin.lt_def, val_add_one (ne_maxUint64_of_lt (hmatch ▸ hnonce))]
    exact Nat.lt_succ_self _
  constructor
  · rw [apply, update_self]
    exact hgrow
  · intro other
    by_cases hother : other = address
    · rw [hother, apply, update_self]
      exact hgrow.le
    · rw [apply, update_of_ne hother]

theorem nonce_le_apply_rule (S : State σ) (auth : SetCodeAuthorization G) (address : Address) :
    (S address).nonce ≤ (apply S auth (rule authority chainID S auth) address).nonce := by
  cases hrule : rule authority chainID S auth with
  | applied found => exact (nonce_apply hrule).2 address
  | skipped reason => exact le_rfl

theorem nonce_le_rules (auths : List (SetCodeAuthorization G)) (S : State σ) (address : Address) :
    (S address).nonce ≤ ((rules authority chainID auths S).2 address).nonce := by
  induction auths generalizing S with
  | nil => exact le_rfl
  | cons auth rest ih => exact le_trans (nonce_le_apply_rule S auth address) (ih _)

/-- An applied authorization raises the nonce of its authority. -/
theorem nonce_lt_rules {auths : List (SetCodeAuthorization G)}
    (h : .applied address ∈ (rules authority chainID auths S).1) :
    (S address).nonce < ((rules authority chainID auths S).2 address).nonce := by
  induction auths generalizing S with
  | nil => cases h
  | cons auth rest ih =>
    rcases mem_cons.mp h with hrule | hrest
    · have hstep := (nonce_apply hrule.symm).1
      rw [hrule] at hstep
      exact lt_of_lt_of_le hstep (nonce_le_rules rest _ address)
    · exact lt_of_le_of_lt (nonce_le_apply_rule S auth address) (ih hrest)

end Rules

/-! ## The replay in step with the rules -/

section Replay

variable {G H σ : Type} {authority : SetCodeAuthorization G → Option Address} {chainID : Nat}

/-- The replay sees the changed accounts as they are and the others as empty, which have
    not moved. -/
structure Sees (changed : Address → Prop) (start : State σ)
    (state : Map Address StateAccountEvidence) (S : State σ) : Prop where
  listed : ∀ address, changed address → accountAt state address = (S address).view
  unlisted : ∀ address, ¬ changed address → state.lookup address = none
  still : ∀ address, ¬ changed address → S address = start address

/-- An authorization that reads the same with its authority missing. -/
def Readable (authority : SetCodeAuthorization G → Option Address) (chainID : Nat)
    (changed : Address → Prop) (start : State σ) (auth : SetCodeAuthorization G) : Prop :=
  ∀ address, Consults authority chainID auth address → ¬ changed address →
    auth.nonce ≠ 0 ∧ Replaceable (start address).code

variable {changed : Address → Prop} {start S : State σ}
  {state : Map Address StateAccountEvidence}
  {auth : SetCodeAuthorization G} {address : Address} {delegations : Delegations}

/-- After an applied authorization the derivation still sees the state. -/
theorem Sees.insert (h : Sees changed start state S) (hchanged : changed address)
    (hmatch : (S address).nonce = auth.nonce) :
    Sees changed start (state.insert address (delegated delegations auth))
      (apply S auth (.applied address)) := by
  refine ⟨fun other hother => ?_, fun other hother => ?_, fun other hother => ?_⟩
  · by_cases heq : other = address
    · rw [heq, accountAt, lookup_insert, apply, update_self, hmatch, delegated,
        delegations.addressToDelegation_eq]
      rfl
    · rw [accountAt, lookup_insert_of_ne _ heq, apply, update_of_ne heq]
      exact h.listed other hother
  · have hne : other ≠ address := fun heq => hother (heq ▸ hchanged)
    rw [lookup_insert_of_ne _ hne]
    exact h.unlisted other hother
  · have hne : other ≠ address := fun heq => hother (heq ▸ hchanged)
    rw [apply, update_of_ne hne]
    exact h.still other hother

/-- The verdict that a result stands for. -/
def AuthorizationResult.Reports (result : AuthorizationResult G) (verdict : Verdict) : Prop :=
  result.status = verdict.status ∧
    ∀ address, verdict = .applied address → result.authority = some address

section

variable (h : Sees changed start state S) (hconsults : Consults authority chainID auth address)
include h hconsults

/-- The replay of an authority that the transaction changed. -/
theorem deriveAuthorization_listed (hchanged : changed address) (index : Nat) :
    (deriveAuthorization delegations authority chainID index auth state).1.Reports
        (rule authority chainID S auth) ∧
      Sees changed start (deriveAuthorization delegations authority chainID index auth state).2
        (apply S auth (rule authority chainID S auth)) := by
  have hview := h.listed address hchanged
  have hcode : (accountAt state address).code = (S address).code := by rw [hview]; rfl
  have hnonce : (accountAt state address).nonce = (S address).nonce := by rw [hview]; rfl
  rw [deriveAuthorization_of_consults hconsults, rule_of_consults hconsults, hcode, hnonce]
  by_cases hreplace : Replaceable (S address).code
  · rw [if_pos hreplace, if_pos hreplace]
    by_cases hmatch : (S address).nonce = auth.nonce
    · rw [if_pos hmatch, if_pos hmatch]
      refine ⟨⟨rfl, ?_⟩, h.insert hchanged hmatch⟩
      rintro _ ⟨⟩
      rfl
    · rw [if_neg hmatch, if_neg hmatch]
      exact ⟨⟨rfl, nofun⟩, h⟩
  · rw [if_neg hreplace, if_neg hreplace]
    exact ⟨⟨rfl, nofun⟩, h⟩

/-- The replay of an authority that the transaction left alone: it looks empty. -/
theorem deriveAuthorization_unlisted (hunchanged : ¬ changed address) (index : Nat) :
    deriveAuthorization delegations authority chainID index auth state = if auth.nonce = 0 then
        (⟨index, auth, some address, .valid, .applied, .none⟩,
          state.insert address (delegated delegations auth))
      else (⟨index, auth, some address, .valid, .skipped, .nonceMismatch⟩, state) := by
  have hzero : accountAt state address = .zero := by
    rw [accountAt, h.unlisted address hunchanged]
    rfl
  rw [deriveAuthorization_of_consults hconsults, hzero]
  rw [if_pos (show Replaceable StateAccountEvidence.zero.code from .inl rfl)]
  exact ite_congr (propext eq_comm) (fun _ => rfl) (fun _ => rfl)

end

section

variable (authority : SetCodeAuthorization G → Option Address)

/-- **One authorization**: the replay agrees with the rules exactly on readable ones, and
    then still sees the state. -/
theorem deriveAuthorization_step (chainID index : Nat) (auth : SetCodeAuthorization G)
    (h : Sees changed start state S)
    (hchanged : ∀ address, rule authority chainID S auth = .applied address → changed address) :
    ((deriveAuthorization delegations authority chainID index auth state).1.status
        = (rule authority chainID S auth).status →
          Readable authority chainID changed start auth) ∧
      (Readable authority chainID changed start auth →
        (deriveAuthorization delegations authority chainID index auth state).1.Reports
            (rule authority chainID S auth) ∧
          Sees changed start (deriveAuthorization delegations authority chainID index auth state).2
            (apply S auth (rule authority chainID S auth))) := by
  by_cases hconsults : ∃ address, Consults authority chainID auth address
  · obtain ⟨address, hconsults⟩ := hconsults
    have hunique : ∀ other, Consults authority chainID auth other → other = address :=
      fun other hother => some.inj (hother.2.2.symm.trans hconsults.2.2)
    by_cases hlisted : changed address
    · refine ⟨fun _ other hother hnot => ?_,
        fun _ => deriveAuthorization_listed h hconsults hlisted index⟩
      rw [hunique other hother] at hnot
      exact absurd hlisted hnot
    · -- the rules skip an unchanged authority; the replay takes it for an empty account
      have hskip : rule authority chainID S auth = if Replaceable (start address).code then
          .skipped .nonceMismatch else .skipped .authorityHasCode := by
        have hrule := rule_of_consults hconsults S
        rw [h.still address hlisted] at hrule
        split_ifs at hrule with hcode hmatch
        · exact absurd (hchanged address hrule) hlisted
        · rw [hrule, if_pos hcode]
        · rw [hrule, if_neg hcode]
      rw [deriveAuthorization_unlisted h hconsults hlisted]
      constructor
      · intro hstatus other hother _
        rw [hunique other hother]
        rw [hskip] at hstatus
        split_ifs at hstatus with hzero hcode hcode
        · cases hstatus
        · cases hstatus
        · exact ⟨hzero, hcode⟩
        · cases hstatus
      · intro hreadable
        obtain ⟨hzero, hcode⟩ := hreadable address hconsults hlisted
        rw [if_neg hzero, hskip, if_pos hcode]
        exact ⟨⟨rfl, nofun⟩, h⟩
  · -- neither reads the state
    have hnone := not_exists.mp hconsults
    obtain ⟨reason, hrule, hderive⟩ := skipped_of_not_consults (σ := σ) hnone
    obtain ⟨status, hderive⟩ := hderive delegations index state
    rw [hrule, hderive]
    exact ⟨fun _ other hother => absurd hother (hnone other),
      fun _ => ⟨⟨rfl, nofun⟩, h⟩⟩

/-- **All authorizations**: the statuses agree exactly when every authorization is
    readable, and then the replay has applied what the rules have applied. -/
theorem deriveAuthorizations_run
    (chainID : Nat) (auths : List (SetCodeAuthorization G)) (index : Nat)
    (state : Map Address StateAccountEvidence) (S : State σ) (h : Sees changed start state S)
    (hchanged : ∀ address, .applied address ∈ (rules authority chainID auths S).1 →
      changed address) :
    ((deriveAuthorizations delegations authority chainID index auths state).1.map
      AuthorizationResult.status
        = (rules authority chainID auths S).1.map Verdict.status →
      ∀ auth ∈ auths, Readable authority chainID changed start auth) ∧
    ((∀ auth ∈ auths, Readable authority chainID changed start auth) →
      Forall₂ AuthorizationResult.Reports
        (deriveAuthorizations delegations authority chainID index auths state).1
        (rules authority chainID auths S).1 ∧
      Sees changed start (deriveAuthorizations delegations authority chainID index auths state).2
        (rules authority chainID auths S).2) := by
  induction auths generalizing index state S with
  | nil => exact ⟨fun _ _ hmem => (nomatch hmem), fun _ => ⟨.nil, h⟩⟩
  | cons auth rest ih =>
    obtain ⟨hread, hstep⟩ := deriveAuthorization_step authority chainID index auth h
      fun address hrule => hchanged address (mem_cons.mpr (.inl hrule.symm))
    have hrest := fun (hsees : Sees changed start
        (deriveAuthorization delegations authority chainID index auth state).2
        (apply S auth (rule authority chainID S auth))) =>
      ih (index + 1) _ _ hsees fun address hmem =>
        hchanged address (mem_cons_of_mem _ hmem)
    constructor
    · intro hstatus
      simp only [deriveAuthorizations, rules, map_cons, cons.injEq] at hstatus
      have hhead := hread hstatus.1
      exact forall_mem_cons.mpr ⟨hhead, (hrest (hstep hhead).2).1 hstatus.2⟩
    · intro hall
      obtain ⟨hhead, htail⟩ := forall_mem_cons.mp hall
      obtain ⟨hreports, hsees⟩ := hstep hhead
      obtain ⟨hreportsRest, hseesRest⟩ := (hrest hsees).2 htail
      exact ⟨.cons hreports hreportsRest, hseesRest⟩

end

end Replay

/-! ## The evidence of a transaction -/

section Evidence

variable {G H σ : Type} {authority : SetCodeAuthorization G → Option Address} {chainID : Nat}

/-- An account that a transaction changed. -/
def Changed (before after : State σ) (address : Address) : Prop := before address ≠ after address

/-- A transaction on the full state: sender, authorizations, execution. -/
structure Transacts (authority : SetCodeAuthorization G → Option Address) (chainID : Nat)
    (tx : Transaction G) (sender : Address) (before bumped after : State σ) : Prop where
  bump : bump before sender = some bumped
  nonces : ∀ address, ((rules authority chainID tx.setCodeAuthorizations bumped).2 address).nonce
    ≤ (after address).nonce

/-- Evidence that records the changed accounts on both sides. -/
structure Records (before after : State σ) (evidence : TransactionStateEvidence) : Prop where
  pre : ∀ address, Changed before after address →
    evidence.pre.lookup address = some (before address).view
  post : ∀ address, Changed before after address →
    evidence.post.lookup address = some (after address).view
  unchanged : ∀ address, ¬ Changed before after address → evidence.pre.lookup address = none

variable {tx : Transaction G} {sender : Address} {before bumped after : State σ}
  {evidence : TransactionStateEvidence} {delegations : Delegations}

/-- The sender's nonce goes up by one, if there is room. -/
theorem bump_eq_some (h : bump before sender = some bumped) :
    (before sender).nonce ≠ maxUint64 ∧
      bumped = update before sender { before sender with nonce := (before sender).nonce + 1 } := by
  rw [bump] at h
  split_ifs at h with hmax
  exact ⟨hmax, (some.inj h).symm⟩

/-- The nonce of the sender goes up and no other one goes down. -/
theorem nonce_bump (h : bump before sender = some bumped) :
    (before sender).nonce < (bumped sender).nonce ∧
      ∀ address, (before address).nonce ≤ (bumped address).nonce := by
  obtain ⟨hmax, rfl⟩ := bump_eq_some h
  have hgrow : (before sender).nonce < (before sender).nonce + 1 := by
    rw [Fin.lt_def, val_add_one hmax]
    exact Nat.lt_succ_self _
  constructor
  · rw [update_self]
    exact hgrow
  · intro address
    by_cases heq : address = sender
    · rw [heq, update_self]
      exact hgrow.le
    · rw [update_of_ne heq]

theorem changed_of_nonce_lt {address : Address}
    (h : (before address).nonce < (after address).nonce) : Changed before after address :=
  fun heq => absurd (heq ▸ h) (lt_irrefl _)

section

variable (h : Transacts authority chainID tx sender before bumped after)
include h

theorem Transacts.sender_changed : Changed before after sender :=
  changed_of_nonce_lt (lt_of_lt_of_le (nonce_bump h.bump).1
    (le_trans (nonce_le_rules _ bumped sender) (h.nonces sender)))

theorem Transacts.applied_changed (address : Address)
    (happlied : .applied address ∈ (rules authority chainID tx.setCodeAuthorizations bumped).1) :
    Changed before after address :=
  changed_of_nonce_lt (lt_of_le_of_lt ((nonce_bump h.bump).2 address)
    (lt_of_lt_of_le (nonce_lt_rules happlied) (h.nonces address)))

/-- The replay starts in sight of the state after the increment. -/
theorem bumpSender_sees
    (hrecords : Records before after evidence) (hauths : tx.setCodeAuthorizations ≠ []) :
    ∃ state, bumpSender tx sender evidence.pre = .ok state ∧
      Sees (Changed before after) before state bumped := by
  obtain ⟨hmax, rfl⟩ := bump_eq_some h.bump
  have hsender := h.sender_changed
  refine ⟨evidence.pre.insert sender
    { (before sender).view with nonce := (before sender).view.nonce + 1 }, ?_, ?_⟩
  · rw [bumpSender, if_pos ⟨hauths, tx.setCode_recipient hauths⟩, hrecords.pre sender hsender]
    exact if_neg hmax
  · refine ⟨fun address hchanged => ?_, fun address hnot => ?_, fun address hnot => ?_⟩
    · by_cases heq : address = sender
      · rw [heq, accountAt, lookup_insert, update_self]
        rfl
      · rw [accountAt, lookup_insert_of_ne _ heq, update_of_ne heq, hrecords.pre address hchanged]
        rfl
    · have hne : address ≠ sender := fun heq => hnot (heq ▸ hsender)
      rw [lookup_insert_of_ne _ hne]
      exact hrecords.unchanged address hnot
    · have hne : address ≠ sender := fun heq => hnot (heq ▸ hsender)
      exact update_of_ne hne _ _

end

variable {state : Map Address StateAccountEvidence} {result : AuthorizationResult G}

/-- What the comparison with the post side asks of an applied authority. -/
theorem checkResult_eq_ok {post : Map Address StateAccountEvidence} :
    checkResult post state result = .ok () ↔
      ∀ address, result.applicationStatus = .applied → result.authority = some address →
        ∃ actual, post.lookup address = some actual ∧
          actual.code = (accountAt state address).code ∧
          (accountAt state address).nonce ≤ actual.nonce := by
  rw [checkResult]
  cases hstatus : result.applicationStatus with
  | skipped => exact iff_of_true rfl fun _ happlied => (nomatch happlied)
  | applied =>
    cases hauthority : result.authority with
    | none => exact iff_of_true rfl fun _ _ hsome => (nomatch hsome)
    | some address =>
      cases hpost : post.lookup address with
      | none =>
        simp only [hpost]
        refine iff_of_false nofun fun h => ?_
        obtain ⟨actual, hactual, -⟩ := h address trivial rfl
        rw [hpost] at hactual
        cases hactual
      | some actual =>
        simp only [hpost]
        by_cases hbad : actual.code ≠ (accountAt state address).code ∨
            actual.nonce < (accountAt state address).nonce
        · rw [if_pos hbad]
          refine iff_of_false nofun fun h => ?_
          obtain ⟨found, hfound, hcode, hnonce⟩ := h address trivial rfl
          rw [hpost] at hfound
          cases hfound
          exact hbad.elim (fun hne => hne hcode) (fun hlt => absurd hnonce (not_le.mpr hlt))
        · rw [if_neg hbad]
          obtain ⟨hcode, hnonce⟩ := not_or.mp hbad
          refine iff_of_true rfl fun other _ hother => ?_
          cases hother
          exact ⟨actual, hpost, not_not.mp hcode, not_lt.mp hnonce⟩

/-- A result says that an authorization was applied iff it was. -/
theorem Reports.applied_iff {verdict : Verdict} (h : result.Reports verdict) (address : Address) :
    (result.applicationStatus = .applied ∧ result.authority = some address)
      ↔ verdict = .applied address := by
  obtain ⟨hstatus, hauthority⟩ := h
  have happlication : result.applicationStatus = verdict.status.1 := congrArg Prod.fst hstatus
  cases verdict with
  | skipped reason =>
    refine iff_of_false ?_ nofun
    rintro ⟨happlied, -⟩
    rw [happlication] at happlied
    cases happlied
  | applied found =>
    rw [hauthority found rfl]
    constructor
    · rintro ⟨-, heq⟩
      rw [some.inj heq]
    · rintro ⟨⟩
      exact ⟨happlication, rfl⟩

/-- The comparison passes exactly when the execution left the applied code alone. -/
theorem checkAll_eq_ok_iff {results : List (AuthorizationResult G)} {verdicts : List Verdict}
    {applied : State σ} (hreports : Forall₂ AuthorizationResult.Reports results verdicts)
    (hsees : Sees (Changed before after) before state applied)
    (hrecords : Records before after evidence)
    (hchanged : ∀ address, .applied address ∈ verdicts → Changed before after address)
    (hnonces : ∀ address, (applied address).nonce ≤ (after address).nonce) :
    checkAll (checkResult evidence.post state) results = .ok () ↔
      ∀ address, .applied address ∈ verdicts → (after address).code
        = (applied address).code := by
  rw [checkAll_eq_ok]
  constructor
  · intro hcheck address happlied
    obtain ⟨result, hresult, hreport⟩ := exists_related hreports.flip happlied
    obtain ⟨hstatus, hauthority⟩ := (Reports.applied_iff hreport address).mpr rfl
    obtain ⟨actual, hactual, hcode, -⟩ :=
      checkResult_eq_ok.mp (hcheck result hresult) address hstatus hauthority
    rw [hrecords.post address (hchanged address happlied)] at hactual
    cases hactual
    rw [hsees.listed address (hchanged address happlied)] at hcode
    exact hcode
  · intro hcode result hresult
    refine checkResult_eq_ok.mpr fun address hstatus hauthority => ?_
    obtain ⟨verdict, hverdict, hreport⟩ := exists_related hreports hresult
    obtain rfl := (Reports.applied_iff hreport address).mp ⟨hstatus, hauthority⟩
    have hlisted := hchanged address hverdict
    refine ⟨(after address).view, hrecords.post address hlisted, ?_, ?_⟩
    · rw [hsees.listed address hlisted]
      exact hcode address hverdict
    · rw [hsees.listed address hlisted]
      exact hnonces address

/-- **The replay on recorded evidence** reports the verdicts of the rules exactly when
    every authorization is readable and the execution left the applied code alone. -/
theorem derive_exact_iff (delegations : Delegations) (keccak256 : List Byte → H)
    {chainIDText : String}
    (hchain : parseChainID chainIDText = some chainID)
    (h : Transacts authority chainID tx sender before bumped after)
    (hrecords : Records before after evidence) :
    (∃ results executions,
        deriveEIP7702Evidence delegations authority keccak256 chainIDText (some tx) sender evidence
          = .ok (results, executions) ∧
        results.map AuthorizationResult.status
          = (rules authority chainID tx.setCodeAuthorizations bumped).1.map Verdict.status) ↔
      (∀ auth ∈ tx.setCodeAuthorizations,
        Readable authority chainID (Changed before after) before auth) ∧
      ∀ address,
        .applied address ∈ (rules authority chainID tx.setCodeAuthorizations bumped).1 →
        (after address).code
          = ((rules authority chainID tx.setCodeAuthorizations bumped).2 address).code := by
  rw [deriveEIP7702Evidence, hchain]
  simp only [bind_eq_ok]
  by_cases hauths : tx.setCodeAuthorizations = []
  · rw [hauths]
    refine iff_of_true ?_ ⟨fun _ hmem => (nomatch hmem), fun _ hmem => (nomatch hmem)⟩
    refine ⟨[], _, ⟨evidence.pre, ?_, (), rfl, rfl⟩, rfl⟩
    -- without authorizations nothing is replayed
    rw [bumpSender, if_neg fun hnot => hnot.1 hauths]
    rfl
  · obtain ⟨state, hstate, hsees⟩ := bumpSender_sees h hrecords hauths
    obtain ⟨hread, hrun⟩ := deriveAuthorizations_run authority chainID
      tx.setCodeAuthorizations 0 state bumped hsees h.applied_changed
    -- the last check compares the applied delegations with the code after execution
    have hcheck := fun hreadable => checkAll_eq_ok_iff (hrun hreadable).1 (hrun hreadable).2
      hrecords h.applied_changed h.nonces
    constructor
    · rintro ⟨results, executions, ⟨found, hfound, ⟨⟩, hchecked, hresults⟩, hstatus⟩
      rw [hstate] at hfound
      cases hfound
      cases hresults
      have hreadable := hread hstatus
      exact ⟨hreadable, (hcheck hreadable).mp hchecked⟩
    · rintro ⟨hreadable, hcode⟩
      refine ⟨_, _, ⟨state, hstate, (), (hcheck hreadable).mpr hcode, rfl⟩, ?_⟩
      rw [← forall₂_eq_eq_eq, forall₂_map_left_iff, forall₂_map_right_iff]
      exact (hrun hreadable).1.imp fun _ _ hreport => hreport.1

end Evidence

/-! ## The tracer's output -/

section Tracer

variable {σ : Type} {before after : State σ}

/-- The members of one side of a difference: the changed accounts, each under a text of its
    address. -/
structure Lists (changed : Address → Prop) (Describes : Address → StateAccountWire → Prop)
    (members : List (String × StateAccountWire)) : Prop where
  named : ∀ m ∈ members, ∃ address, parseAddress m.1 = some address ∧ changed address ∧
    Describes address m.2
  complete : ∀ address, changed address → ∃ m ∈ members, parseAddress m.1 = some address

/-- All scalar fields of an account; zero values may be left out. -/
def DescribesAll (account : Account σ) (wire : StateAccountWire) : Prop :=
  (wire.nonce = .number account.nonce.val ∨ (account.nonce = 0 ∧ wire.nonce = .absent)) ∧
    (wire.code = some (text account.code) ∨ (account.code = [] ∧ wire.code = none))

/-- The fields in which an account differs from what it was. -/
def DescribesChanges (before after : Account σ) (wire : StateAccountWire) : Prop :=
  wire.nonce = (if after.nonce = before.nonce then .absent else .number after.nonce.val) ∧
    wire.code = if after.code = before.code then none else some (text after.code)

/-- The output of `prestateTracer` in `diffMode`. -/
def DiffTrace (before after : State σ) (wire : StateDiffWire) : Prop :=
  ∃ pre post, wire = ⟨some pre, some post⟩ ∧
    Lists (Changed before after) (fun address => DescribesAll (before address)) pre ∧
    Lists (Changed before after)
      (fun address => DescribesChanges (before address) (after address)) post

theorem decodeStateNonce_number (n : Uint64) : decodeStateNonce (.number n.val) = .ok n := by
  have hrange : 0 ≤ (n.val : Int) ∧ (n.val : Int).toNat < 18446744073709551616 :=
    ⟨Int.natCast_nonneg _, n.isLt⟩
  rw [decodeStateNonce, canonicalStateNonce, dif_pos hrange]
  rfl

theorem decodeStateCode_text (code : List Byte) :
    decodeStateCode (some (text code)) = .ok code := by
  rw [decodeStateCode, parseData_text]

variable {wire : StateAccountWire}

theorem decodeStateAccountEvidence_ok {nonce : Uint64}
    (hnonce : decodeStateNonce wire.nonce = .ok nonce)
    (hcode : decodeStateCode wire.code = .ok code) :
    decodeStateAccountEvidence wire = .ok ⟨nonce, code⟩ := by
  rw [decodeStateAccountEvidence, hnonce, hcode]
  rfl

/-- The pre side reads back as the account it describes. -/
theorem decodeStateAccountEvidence_all {account : Account σ}
    (h : DescribesAll account wire) : decodeStateAccountEvidence wire = .ok account.view := by
  obtain ⟨hnonce, hcode⟩ := h
  refine decodeStateAccountEvidence_ok ?_ ?_
  · rcases hnonce with hnonce | ⟨hzero, hnonce⟩
    · rw [hnonce]
      exact decodeStateNonce_number account.nonce
    · rw [hnonce, hzero]
      rfl
  · rcases hcode with hcode | ⟨hempty, hcode⟩
    · rw [hcode]
      exact decodeStateCode_text account.code
    · rw [hcode, hempty]
      rfl

/-- The post side, filled up from the pre side, reads back as the account after. -/
theorem decodePair_ok {account next : Account σ} {pre post : StateAccountWire}
    (hpre : DescribesAll account pre) (hpost : DescribesChanges account next post) :
    decodePair ⟨some pre, some post⟩ = .ok (some account.view, some next.view) := by
  obtain ⟨hnonce, hcode⟩ := hpost
  have hn : ∃ nonce, decodeStateNonce post.nonce = .ok nonce ∧
      (if post.nonce.missing = true then account.nonce else nonce) = next.nonce := by
    by_cases hsame : next.nonce = account.nonce
    · rw [if_pos hsame] at hnonce
      exact ⟨0, hnonce ▸ rfl, hnonce ▸ hsame.symm⟩
    · rw [if_neg hsame] at hnonce
      exact ⟨next.nonce, hnonce ▸ decodeStateNonce_number next.nonce, hnonce ▸ rfl⟩
  have hc : ∃ code, decodeStateCode post.code = .ok code ∧
      (if post.code.isNone = true then account.code else code) = next.code := by
    by_cases hsame : next.code = account.code
    · rw [if_pos hsame] at hcode
      exact ⟨[], hcode ▸ rfl, hcode ▸ hsame.symm⟩
    · rw [if_neg hsame] at hcode
      exact ⟨next.code, hcode ▸ decodeStateCode_text next.code, hcode ▸ rfl⟩
  obtain ⟨nonce, hnonceOk, hnonceEq⟩ := hn
  obtain ⟨code, hcodeOk, hcodeEq⟩ := hc
  simp only [decodePair, getD_some, decodeStateAccountEvidence_all hpre,
    decodeStateAccountEvidence_ok hnonceOk hcodeOk]
  show Except.ok (some account.view, some _) = _
  rw [Account.view, Account.view, ← hnonceEq, ← hcodeEq]
  rfl

variable {changed : Address → Prop} {Describes : Address → StateAccountWire → Prop}
  {members : List (String × StateAccountWire)}

/-- Accounts under valid addresses are read one by one. -/
theorem parseAccounts_ok (h : ∀ m ∈ members, ∃ address, parseAddress m.1 = some address) :
    ∃ parsed, parseAccounts members = .ok parsed ∧
      Forall₂ (fun m p => parseAddress m.1 = some p.1 ∧ m.2 = p.2) members parsed := by
  induction members with
  | nil => exact ⟨[], rfl, .nil⟩
  | cons m rest ih =>
    obtain ⟨hhead, htail⟩ := forall_mem_cons.mp h
    obtain ⟨address, haddress⟩ := hhead
    obtain ⟨parsed, hparsed, hrel⟩ := ih htail
    refine ⟨(address, m.2) :: parsed, ?_, .cons ⟨haddress, rfl⟩ hrel⟩
    rw [parseAccounts, haddress, hparsed]
    rfl

/-- The map of one side holds the changed accounts and no others. -/
theorem Lists.accountMap (h : Lists changed Describes members) :
    ∃ parsed, parseAccounts members = .ok parsed ∧ (∀ address, changed address →
        ∃ wire, (accountMap parsed).lookup address = some wire ∧ Describes address wire) ∧
      ∀ address, ¬ changed address → (accountMap parsed).lookup address = none := by
  obtain ⟨parsed, hparsed, hrel⟩ := parseAccounts_ok fun m hm =>
    (h.named m hm).imp fun _ hnamed => hnamed.1
  have hdescribed : ∀ p ∈ parsed, changed p.1 ∧ Describes p.1 p.2 := by
    intro p hp
    obtain ⟨m, hm, haddress, hwire⟩ := exists_related hrel.flip hp
    obtain ⟨address, hname, hchanged, hdescribes⟩ := h.named m hm
    rw [haddress] at hname
    cases hname
    exact ⟨hchanged, hwire ▸ hdescribes⟩
  refine ⟨parsed, hparsed, fun address hchanged => ?_, fun address hnot => ?_⟩
  · obtain ⟨m, hm, hname⟩ := h.complete address hchanged
    obtain ⟨p, hp, haddress, -⟩ := exists_related hrel hm
    rw [hname] at haddress
    obtain ⟨q, hq, hkey, hlookup⟩ : ∃ q ∈ parsed, q.1 = address ∧
        (Enrich.accountMap parsed).lookup address = some q.2 :=
      lookup_insertAll_of_mem ⟨p, hp, (some.inj haddress).symm⟩
    exact ⟨q.2, hlookup, hkey ▸ (hdescribed q hq).2⟩
  · refine (lookup_insertAll_of_notMem fun p hp hkey => ?_).trans (lookup_empty _)
    exact hnot (hkey ▸ (hdescribed p hp).1)

/-- The loop over the pairs, when every pair holds both sides of its account. -/
theorem decodePairs_ok {pre post : Map Address StateAccountWire} (addresses : List Address)
    (evidence : TransactionStateEvidence)
    (h : ∀ address ∈ addresses, decodePair ⟨pre.lookup address, post.lookup address⟩
      = .ok (some (before address).view, some (after address).view)) :
    ∃ next, decodePairs pre post addresses evidence = .ok next ∧
      (∀ address ∈ addresses, next.pre.lookup address = some (before address).view ∧
        next.post.lookup address = some (after address).view) ∧
      ∀ address, address ∉ addresses → next.pre.lookup address
        = evidence.pre.lookup address ∧
        next.post.lookup address = evidence.post.lookup address := by
  induction addresses generalizing evidence with
  | nil => exact ⟨evidence, rfl, fun _ hmem => (nomatch hmem), fun _ _ => ⟨rfl, rfl⟩⟩
  | cons address rest ih =>
    obtain ⟨hhead, htail⟩ := forall_mem_cons.mp h
    obtain ⟨next, hnext, hin, hout⟩ := ih ⟨evidence.pre.insert address (before address).view,
        evidence.post.insert address (after address).view⟩ htail
    refine ⟨next, ?_, fun other hother => ?_, fun other hother => ?_⟩
    · rw [decodePairs, hhead]
      exact hnext
    · by_cases hrest : other ∈ rest
      · exact hin other hrest
      · obtain rfl | hmem := mem_cons.mp hother
        · rw [(hout other hrest).1, (hout other hrest).2]
          exact ⟨lookup_insert _, lookup_insert _⟩
        · exact absurd hmem hrest
    · obtain ⟨hne, hrest⟩ := not_or.mp (mt mem_cons.mpr hother)
      rw [(hout other hrest).1, (hout other hrest).2]
      exact ⟨lookup_insert_of_ne _ hne, lookup_insert_of_ne _ hne⟩

/-- **A difference trace is decoded** into the changed accounts, as they were and as they
    are. -/
theorem DiffTrace.records {wire : StateDiffWire} (h : DiffTrace before after wire) :
    ∃ evidence, decodeTransactionStateEvidence wire = .ok evidence ∧
      Records before after evidence := by
  obtain ⟨pre, post, rfl, hpre, hpost⟩ := h
  obtain ⟨preParsed, hpreParsed, hpreIn, hpreOut⟩ := hpre.accountMap
  obtain ⟨postParsed, hpostParsed, hpostIn, hpostOut⟩ := hpost.accountMap
  -- the trace lists exactly the accounts that changed
  have hkeys : ∀ address,
      address ∈ ((accountMap preParsed).keys ∪ (accountMap postParsed).keys).sort
      (· ≤ ·) ↔ Changed before after address := by
    intro address
    rw [Finset.mem_sort, Finset.mem_union, Finmap.mem_keys, Finmap.mem_keys]
    constructor
    · intro hmem
      by_contra hnot
      rcases hmem with hmem | hmem
      · rw [← lookup_isSome, hpreOut address hnot] at hmem
        cases hmem
      · rw [← lookup_isSome, hpostOut address hnot] at hmem
        cases hmem
    · intro hchanged
      obtain ⟨w, hw, -⟩ := hpreIn address hchanged
      exact .inl (mem_of_lookup_eq_some hw)
  have hpairs : ∀ address ∈ ((accountMap preParsed).keys ∪ (accountMap postParsed).keys).sort
      (· ≤ ·), decodePair ⟨(accountMap preParsed).lookup address,
          (accountMap postParsed).lookup address⟩
        = .ok (some (before address).view, some (after address).view) := by
    intro address hmem
    have hchanged := (hkeys address).mp hmem
    obtain ⟨w, hw, hdescribes⟩ := hpreIn address hchanged
    obtain ⟨w', hw', hchanges⟩ := hpostIn address hchanged
    rw [hw, hw']
    exact decodePair_ok hdescribes hchanges
  obtain ⟨evidence, hevidence, hin, hout⟩ := decodePairs_ok _ ⟨∅, ∅⟩ hpairs
  refine ⟨evidence, ?_, ?_⟩
  · simp only [decodeTransactionStateEvidence, hpreParsed, hpostParsed]
    exact hevidence
  · refine ⟨fun address hchanged => ?_, fun address hchanged => ?_, fun address hnot => ?_⟩
    · exact (hin address ((hkeys address).mpr hchanged)).1
    · exact (hin address ((hkeys address).mpr hchanged)).2
    · exact (hout address (mt (hkeys address).mp hnot)).1.trans (lookup_empty _)

end Tracer

/-! ## Main result -/

/-- **Evidence from a difference trace**: for any transaction on any state, the decoded
    trace replays without error to the status and skip reason of every authorization exactly
    when no consulted authority that stayed unchanged carries foreign code or meets an
    authorization with nonce 0, and the execution left the code of applied authorities
    alone. -/
theorem evidence_exact_iff (delegations : Delegations) {G H σ : Type}
    {authority : SetCodeAuthorization G → Option Address}
    (keccak256 : List Byte → H) {chainID : Nat} {chainIDText : String} {tx : Transaction G}
    {sender : Address} {before bumped after : State σ} {wire : StateDiffWire}
    (hchain : parseChainID chainIDText = some chainID)
    (h : Transacts authority chainID tx sender before bumped after)
    (htrace : DiffTrace before after wire) :
    (∃ evidence results executions, decodeTransactionStateEvidence wire = .ok evidence ∧
        deriveEIP7702Evidence delegations authority keccak256 chainIDText (some tx) sender evidence
          = .ok (results, executions) ∧
        results.map AuthorizationResult.status
          = (rules authority chainID tx.setCodeAuthorizations bumped).1.map Verdict.status) ↔
      (∀ auth ∈ tx.setCodeAuthorizations, ∀ address,
        Consults authority chainID auth address → before address = after address →
          auth.nonce ≠ 0 ∧ Replaceable (before address).code) ∧
      ∀ address,
        .applied address ∈ (rules authority chainID tx.setCodeAuthorizations bumped).1 →
        (after address).code
          = ((rules authority chainID tx.setCodeAuthorizations bumped).2 address).code := by
  obtain ⟨evidence, hevidence, hrecords⟩ := htrace.records
  have hexact := derive_exact_iff delegations keccak256 hchain h hrecords
  have hreadable : (∀ auth ∈ tx.setCodeAuthorizations,
        Readable authority chainID (Changed before after) before auth) ↔
      ∀ auth ∈ tx.setCodeAuthorizations, ∀ address,
        Consults authority chainID auth address → before address = after address →
          auth.nonce ≠ 0 ∧ Replaceable (before address).code := by
    simp only [Readable, Changed, not_not]
  rw [← hreadable, ← hexact]
  constructor
  · rintro ⟨found, results, executions, hfound, hderive, hstatus⟩
    rw [hevidence] at hfound
    cases hfound
    exact ⟨results, executions, hderive, hstatus⟩
  · rintro ⟨results, executions, hderive, hstatus⟩
    exact ⟨evidence, results, executions, hevidence, hderive, hstatus⟩

/-! ### Two transactions of one sender -/

/-- The sender. -/
def alice : Address := ⟨List.replicate 20 (Fin.ofNat 256 1), List.length_replicate⟩

/-- An account with nonce 5. -/
def bob : Address := ⟨List.replicate 20 (Fin.ofNat 256 2), List.length_replicate⟩

/-- The state around the sender's account. -/
def aliceWith (nonce : Uint64) (code : List Byte) : State Unit := fun address =>
  if address = alice then ⟨0, nonce, code, ()⟩
  else if address = bob then ⟨0, 5, [], ()⟩
  else ⟨0, 0, [], ()⟩

/-- Bytes that are as many as an address has. -/
def addressOf (bytes : List Byte) : Option Address :=
  if h : bytes.length = 20 then some ⟨bytes, h⟩ else none

theorem addressOf_eq_some {bytes : List Byte} {address : Address} :
    addressOf bytes = some address ↔ bytes = address.val := by
  rw [addressOf]
  split_ifs with h
  · rw [some.injEq, Subtype.ext_iff]
  · refine iff_of_false (fun heq => (nomatch heq)) fun heq => h ?_
    rw [heq, address.property]

/-- A delegation is its marker with an address. -/
theorem parse_eq_some (code : List Byte) (address : Address) :
    (if code.take 3 = [239, 1, 0] then addressOf (code.drop 3) else none) = some address
      ↔ code = delegation address := by
  split_ifs with hfront
  · rw [addressOf_eq_some, delegation, ← hfront]
    constructor
    · intro hrest
      rw [← hrest, take_append_drop]
    · intro hcode
      exact append_cancel_left ((take_append_drop 3 code).trans hcode)
  · refine iff_of_false (fun heq => (nomatch heq)) fun heq => hfront ?_
    rw [heq]
    rfl

/-- Delegations that are read by their first bytes. -/
def byFront : Delegations where
  parseDelegation code :=
    if code.take 3 = [239, 1, 0] then addressOf (code.drop 3) else none
  addressToDelegation := delegation
  parseDelegation_eq_some := parse_eq_some
  addressToDelegation_eq _ := rfl

/-- A set-code transaction with one authorization. -/
def setCode (auth : SetCodeAuthorization Unit) : Transaction Unit :=
  ⟨some bob, [auth], fun _ => nofun⟩

/-- The trace of a transaction that changed the sender only. -/
def aliceTrace (nonce : Uint64) (code : List Byte) : StateDiffWire :=
  ⟨some [(text alice.val, ⟨.number 7, none⟩)], some [(text alice.val,
      ⟨.number nonce.val, if code = [] then none else some (text code)⟩)]⟩

theorem aliceWith_changed {nonce : Uint64} (h : nonce ≠ 7) (address : Address) :
    Changed (aliceWith 7 []) (aliceWith nonce code) address ↔ address = alice := by
  constructor
  · intro hchanged
    by_contra hne
    refine hchanged ?_
    simp only [aliceWith, if_neg hne]
  · rintro rfl heq
    exact h (congrArg Account.nonce heq).symm

/-- The trace of the change. -/
theorem aliceTrace_diffTrace {nonce : Uint64} (h : nonce ≠ 7) :
    DiffTrace (aliceWith 7 []) (aliceWith nonce code) (aliceTrace nonce code) := by
  refine ⟨_, _, rfl, ⟨fun m hm => ?_, fun address hchanged => ?_⟩,
    ⟨fun m hm => ?_, fun address hchanged => ?_⟩⟩
  · obtain rfl := mem_singleton.mp hm
    exact ⟨alice, parseAddress_text alice, (aliceWith_changed h alice).mpr rfl,
      .inl rfl, .inr ⟨rfl, rfl⟩⟩
  · obtain rfl := (aliceWith_changed h address).mp hchanged
    exact ⟨_, mem_singleton_self _, parseAddress_text alice⟩
  · obtain rfl := mem_singleton.mp hm
    exact ⟨alice, parseAddress_text alice, (aliceWith_changed h alice).mpr rfl,
      (if_neg h).symm, rfl⟩
  · obtain rfl := (aliceWith_changed h address).mp hchanged
    exact ⟨_, mem_singleton_self _, parseAddress_text alice⟩

theorem update_aliceWith (nonce next : Uint64) (code replaced : List Byte) :
    update (aliceWith nonce code) alice ⟨0, next, replaced, ()⟩ = aliceWith next replaced := by
  funext address
  by_cases heq : address = alice
  · rw [heq, update_self]
    rfl
  · rw [update_of_ne heq]
    simp only [aliceWith, if_neg heq]

theorem bump_aliceWith : bump (aliceWith 7 []) alice = some (aliceWith 8 []) :=
  (if_neg (by decide)).trans (congrArg some (update_aliceWith 7 8 [] []))

/-- The sender delegates its own account: the authorization is applied, and reported so. -/
theorem evidence_exact_iff_self : ∃ evidence results executions,
      decodeTransactionStateEvidence (aliceTrace 9 (delegation bob)) = .ok evidence ∧
      deriveEIP7702Evidence byFront (fun _ => some alice) id "1"
        (some (setCode ⟨1, bob, 8, ()⟩)) alice
        evidence = .ok (results, executions) ∧
      results.map AuthorizationResult.status = [(.applied, .none)] := by
  have hrules : rules (fun _ => some alice) 1 [(⟨1, bob, 8, ()⟩ : SetCodeAuthorization Unit)]
      (aliceWith 8 []) = ([.applied alice], aliceWith 9 (delegation bob)) := by
    have hrule : rule (fun _ => some alice) 1 (aliceWith 8 [])
        (⟨1, bob, 8, ()⟩ : SetCodeAuthorization Unit) = .applied alice := by decide +kernel
    simp only [rules, hrule, apply]
    exact congrArg (Prod.mk _) (update_aliceWith 8 9 [] (delegation bob))
  have htrace : DiffTrace (aliceWith 7 []) (aliceWith 9 (delegation bob)) _ :=
    aliceTrace_diffTrace (by decide)
  have htransacts : Transacts (fun _ => some alice) 1 (setCode ⟨1, bob, 8, ()⟩) alice
      (aliceWith 7 []) (aliceWith 8 []) (aliceWith 9 (delegation bob)) :=
    ⟨bump_aliceWith, fun address => by rw [setCode, hrules]⟩
  have hexact := evidence_exact_iff byFront (id : List Byte → List Byte)
    (show parseChainID "1" = some 1 by decide +kernel) htransacts htrace
  rw [setCode, hrules] at hexact
  refine hexact.mpr ⟨?_, ?_⟩
  · rintro auth hauth address ⟨-, -, hauthority⟩ hsame
    cases hauthority
    exact absurd hsame ((aliceWith_changed (by decide) alice).mpr rfl)
  · intro address happlied
    rfl

/-- An authorization with nonce 0 of an account that the transaction does not touch: the
    rules skip it, the replay takes the missing account for an empty one, applies it and
    fails. -/
theorem stale_authorization_fails :
    Transacts (fun _ => some bob) 1 (setCode ⟨1, alice, 0, ()⟩) alice (aliceWith 7 [])
        (aliceWith 8 []) (aliceWith 8 []) ∧
      DiffTrace (aliceWith 7 []) (aliceWith 8 []) (aliceTrace 8 []) ∧
      (rules (fun _ => some bob) 1 (setCode ⟨1, alice, 0, ()⟩).setCodeAuthorizations
        (aliceWith 8 [])).1 = [.skipped .nonceMismatch] ∧
      (decodeTransactionStateEvidence (aliceTrace 8 []) >>= fun evidence =>
        deriveEIP7702Evidence byFront (fun _ => some bob) (id : List Byte → List Byte) "1"
          (some (setCode ⟨1, alice, 0, ()⟩)) alice evidence)
        = .error "applied authorization lacks post-state evidence" := by
  have hrule : rule (fun _ => some bob) 1 (aliceWith 8 [])
      (⟨1, alice, 0, ()⟩ : SetCodeAuthorization Unit) = .skipped .nonceMismatch := by
    decide +kernel
  refine ⟨⟨bump_aliceWith, fun address => ?_⟩, aliceTrace_diffTrace (by decide), ?_, ?_⟩
  · simp only [setCode, rules, hrule, apply, le_refl]
  · simp only [setCode, rules, hrule]
  · decide +kernel

end Enrich
