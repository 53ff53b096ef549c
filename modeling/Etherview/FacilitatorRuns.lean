import Etherview.FacilitatorInvariant

/-! # The programs of the facilitator

    Every program meets what it owes, whatever the others do.  The heart of the matter is
    `reconcile`: it draws a verdict from a row that it has read, and the gate makes sure that
    the row is still what it was.  The scheme runs under the gate too, so when it has
    returned without a stored transaction, none is stored later. -/

namespace Facilitator

open Relational Interaction Transact Prog

section Judgements

variable {service : Service} {Asked : PaymentRequest → Prop} {lane : Nat} {s : System}
  {ε α : Type} {kept : System → Prop}

/-- The world in which the programs of a lane are judged. -/
abbrev judged (service : Service) (Asked : PaymentRequest → Prop) (lane : Nat) :
    World facilitatorInterface System :=
  (world service Asked lane).under (Inv service Asked)

/-- The others leave it as it is. -/
def Stable (lane : Nat) (kept : System → Prop) : Prop :=
  ∀ s t, kept s → Rely lane s t → kept t

/-- What a lane knows of an earlier state. -/
structure Since (lane : Nat) (s t : System) : Prop where
  later : Later s t
  found : t.found lane = s.found lane
  gated : t.gated lane = s.gated lane
  gate : ∀ network, s.gate network = some lane → t.gate network = some lane

theorem Since.refl (lane : Nat) (s : System) : Since lane s s :=
  ⟨.refl s, rfl, rfl, fun _ h => h⟩

variable {t u : System}

theorem Since.trans (h : Since lane s t) (h' : Since lane t u) : Since lane s u :=
  ⟨h.later.trans h'.later, h'.found.trans h.found, h'.gated.trans h.gated,
    fun net hnet => h'.gate net (h.gate net hnet)⟩

theorem Rely.since (h : Rely lane s t) : Since lane s t := ⟨h.later, h.found, h.gated, h.gate⟩

theorem stable_since : Stable lane (Since lane s) := fun _ _ h hrely => h.trans hrely.since

theorem stable_and {kept' : System → Prop} (h : Stable lane kept) (h' : Stable lane kept') :
    Stable lane fun t => kept t ∧ kept' t :=
  fun s t hs hrely => ⟨h s t hs.1 hrely, h' s t hs.2 hrely⟩

theorem stable_gate (network : Network) :
    Stable lane fun t => t.gate network = some lane := fun _ _ h hrely => hrely.gate network h

/-! ## Requests -/

variable {request : facilitatorInterface.Request}
  {next : facilitatorInterface.Answer request → Facilitate ε α}

/-- A request under stable facts: what it owes, and how the program goes on. -/
theorem meets_ask {post : Except ε α → System → Prop} (hstable : Stable lane kept)
    (hs : kept s)
    (howes : ∀ t, Inv service Asked t → kept t → Owes service Asked lane request t)
    (hnext : ∀ t answer u, Inv service Asked t → kept t → Serves lane request t answer u →
      (next answer).Sat (judged service Asked lane) post u) :
    (ask request next : Facilitate ε α).Sat (judged service Asked lane) post s := by
  intro t hrely
  have ht := hstable s t hs hrely
  exact ⟨fun hinv => howes t hinv ht, fun answer u hserves =>
    hnext t answer u hserves.1 ht hserves.2⟩

/-- The request leaves the system as it is. -/
def Request.reads : Request → Bool
  | .healthy _ | .guard | .get _ | .pendingCount _ | .pending _ | .rpc _ | .view _ | .ticks
  | .observe _ _ => true
  | _ => false

/-- A read changes nothing. -/
theorem reads_serves (h : Request.reads request = true)
    {answer : facilitatorInterface.Answer request}
    (hserves : Serves lane request t answer u) : u = t := by
  cases request with
  | healthy network => exact hserves
  | guard => exact hserves
  | get id => exact hserves.1
  | pendingCount network => exact hserves.1
  | pending network => exact hserves.1
  | rpc read => exact hserves
  | view query => exact hserves
  | ticks => exact hserves
  | observe config hash => exact hserves.1
  | arrive id => cases h
  | answer request result => cases h
  | tryGate network => cases h
  | awaitGate network => cases h
  | releaseGate network => cases h
  | write statement => cases h
  | send id raw => cases h

/-- A read owes nothing. -/
theorem reads_owes (h : Request.reads request = true)
    (t : System) : Owes service Asked lane request t := by
  cases request with
  | write statement => cases h
  | send id raw => cases h
  | releaseGate network => cases h
  | answer request result => cases h
  | _ => trivial

section

variable (hreads : Request.reads request = true) (hstable : Stable lane kept)
include hreads hstable

/-- A program that reads goes on under the same facts. -/
theorem meets_read {post : Except ε α → System → Prop} (hs : kept s)
    (hnext : ∀ t answer, Inv service Asked t → kept t → Serves lane request t answer t →
      (next answer).Sat (judged service Asked lane) post t) :
    (ask request next : Facilitate ε α).Sat (judged service Asked lane) post s := by
  refine meets_ask hstable hs (fun t _ _ => reads_owes hreads t)
    fun t answer u hinv ht hserves => ?_
  obtain rfl := reads_serves hreads hserves
  exact hnext u answer hinv ht hserves

theorem keeps_read (hnext : ∀ answer, (next answer).Keeps (judged service Asked lane) kept) :
    (ask request next : Facilitate ε α).Keeps (judged service Asked lane) kept :=
  fun _ hs => meets_read hreads hstable hs fun t answer _ ht _ => hnext answer t ht

end

section

variable (hstable : Stable lane kept)
include hstable

/-- Asking the node keeps stable facts. -/
theorem rpc_keeps (read : Rpc) (err : ε) :
    (rpc read err : Facilitate ε Nat).Keeps (judged service Asked lane) kept := by
  refine keeps_read rfl hstable fun answer => ?_
  cases answer with
  | none | some value => exact fun _ ht => ht

theorem guard_keeps : (guard : Facilitate ε Bool).Keeps (judged service Asked lane) kept :=
  keeps_read rfl hstable fun _ => keeps_pure

theorem guarded_keeps : guarded.Keeps (judged service Asked lane) kept :=
  (guard_keeps hstable).bind fun _ => keeps_liftM

/-- Reading a row that must be there. -/
theorem meets_get {id : AuthorizationID} {err : ε}
    {post : Except ε Settlement → System → Prop}
    (hs : kept s) (herr : ∀ t, kept t → post (.error err) t)
    (hok : ∀ t row, Inv service Asked t → kept t → t.rows.lookup id = some row →
      post (.ok row) t) :
    (getOr id err : Facilitate ε Settlement).Sat (judged service Asked lane) post s := by
  refine meets_read rfl hstable hs fun t answer hinv ht hserves => ?_
  rcases hserves with ⟨-, rfl | rfl⟩
  · exact herr t ht
  · cases hrow : t.rows.lookup id with
    | none => exact herr t ht
    | some row => exact hok t row hinv ht hrow

end

/-- What a statement of the lane has done. -/
structure Ran (lane : Nat) (statement : Statement) (t u : System) : Prop where
  effect : Effect t.rows u.rows statement
  since : Since lane t u
  gate : u.gate = t.gate
  final : u.final = t.final

variable {statement : Statement}

/-- A statement that was sent has run or not. -/
theorem ran_of_serves {answer : Option Nat}
    (hinv : Inv service Asked t) (hlawful : Lawful service Asked lane t statement)
    (hserves : Serves lane (.write statement) t answer u) :
    Ran lane statement t u
      ∧ ∀ count, answer = some count → statement.apply t.rows = some (count, u.rows) := by
  rcases hserves with ⟨rfl, rfl⟩ | ⟨count, rows, happly, hanswer, rfl⟩
  · exact ⟨⟨.none rfl, .refl lane u, rfl, rfl⟩, fun _ h => by cases h⟩
  · have heffect := Statement.effect happly
    refine ⟨⟨heffect, ⟨(hlawful.step hinv heffect).2.1, rfl, rfl, fun _ h => h⟩,
      rfl, rfl⟩, ?_⟩
    intro count' hcount
    rcases hanswer with rfl | rfl
    · cases hcount
    · cases hcount
      exact happly

section

variable (hstable : Stable lane kept)
include hstable

/-- A lawful statement that must succeed. -/
theorem meets_write {err : ε} {post : Except ε Nat → System → Prop} (hs : kept s)
    (hlawful : ∀ t, Inv service Asked t → kept t → Lawful service Asked lane t statement)
    (herr : ∀ t u, kept t → Ran lane statement t u → post (.error err) u)
    (hok : ∀ t u count, Inv service Asked t → kept t → Ran lane statement t u →
      statement.apply t.rows = some (count, u.rows) → post (.ok count) u) :
    (write statement err : Facilitate ε Nat).Sat (judged service Asked lane) post s := by
  refine meets_ask hstable hs hlawful fun t answer u hinv ht hserves => ?_
  obtain ⟨hran, happly⟩ := ran_of_serves hinv (hlawful t hinv ht) hserves
  cases answer with
  | none => exact herr t u ht hran
  | some count => exact hok t u count hinv ht hran (happly count rfl)

/-- A statement whose outcome is ignored. -/
theorem tryWrite_keeps
    (hlawful : ∀ t, Inv service Asked t → kept t → Lawful service Asked lane t statement)
    (hran : ∀ t u, kept t → Ran lane statement t u → kept u) :
    (tryWrite statement : Facilitate ε Unit).Keeps (judged service Asked lane) kept :=
  fun _ hs => meets_ask hstable hs hlawful fun t _ u hinv ht hserves =>
    hran t u ht (ran_of_serves hinv (hlawful t hinv ht) hserves).1

/-! ## Waiting for a receipt -/

/-- What a program may do for the authorization of its context. -/
structure Confirms (lane : Nat) (ctx : Option AuthorizationID) (kept : System → Prop) : Prop where
  stable : Stable lane kept
  gate : ∀ id ∈ ctx, ∀ t, kept t → t.gate id.network = some lane
  ran : ∀ id ∈ ctx, ∀ hash t u, kept t → Ran lane (.confirmBroadcast id hash) t u → kept u

/-- Without an authorization there is nothing to confirm. -/
theorem confirms_none : Confirms lane none kept where
  stable := hstable
  gate := by rintro id ⟨⟩
  ran := by rintro id ⟨⟩

end

variable {ctx : Option AuthorizationID}

/-- Confirming the broadcast keeps the facts. -/
theorem Confirms.tryWrite (h : Confirms lane ctx kept)
    {id : AuthorizationID} (hid : id ∈ ctx) (hash : Hash) :
    (tryWrite (.confirmBroadcast id hash) : Facilitate ε Unit).Keeps (judged service Asked lane)
      kept :=
  tryWrite_keeps h.stable (fun t hinv ht => lawful_confirmBroadcast hinv (h.gate id hid t ht) hash)
    fun t u => h.ran id hid hash t u

theorem Confirms.final (h : Confirms lane ctx kept) (hash : Hash)
    (receipt : Receipt) : Confirms lane ctx fun t => kept t ∧ t.final hash = some receipt where
  stable := stable_and h.stable fun _ _ hfinal hrely => hrely.later.final _ _ hfinal
  gate id hid t ht := h.gate id hid t ht.1
  ran id hid other t u ht hran :=
    ⟨h.ran id hid other t u ht.1 hran, hran.since.later.final _ _ ht.2⟩

section

variable (h : Confirms lane ctx kept) (config : ChainConfig) (hash : Hash)
include h

/-- **Receipts**: one that is returned is final. -/
theorem waitRounds_meets (count : Nat) (hs : kept s) :
    (waitRounds config ctx hash count : Facilitate ε (Option Receipt)).Sat
      (judged service Asked lane)
      (fun out t => kept t ∧ ∀ receipt, out = .ok (some receipt) →
        t.final hash = some receipt)
      s := by
  induction count generalizing s with
  | zero => exact ⟨hs, fun receipt heq => by cases heq⟩
  | succ count ih =>
    refine meets_read rfl h.stable hs fun t observation hinv ht hserves => ?_
    simp only [Prog.bind]
    cases hround : observation.round config hash with
    | unavailable => exact ⟨ht, fun receipt heq => by cases heq⟩
    | wait => exact ih ht
    | accepted receipt =>
      have hfinal := hserves.2 receipt hround
      cases ctx with
      | none =>
        refine ⟨ht, fun other heq => ?_⟩
        cases heq
        exact hfinal
      | some id =>
        refine sat_bind.mpr (((h.final hash receipt).tryWrite rfl _ t ⟨ht, hfinal⟩).mono ?_)
        rintro (err | _) u ⟨hu, hfinal⟩
        · exact ⟨hu, fun other heq => by cases heq⟩
        · refine ⟨hu, fun other heq => ?_⟩
          cases heq
          exact hfinal

/-- A receipt that is waited for is final. -/
theorem waitForTransactionReceipt_meets (hs : kept s) :
    (waitForTransactionReceipt config ctx hash : Facilitate ε (Option Receipt)).Sat
      (judged service Asked lane)
      (fun out t => kept t ∧ ∀ receipt, out = .ok (some receipt) →
        t.final hash = some receipt) s :=
  meets_read rfl h.stable hs fun _ count _ ht _ => waitRounds_meets h config hash count ht

theorem waitForTransactionReceipt_keeps :
    (waitForTransactionReceipt config ctx hash : Facilitate ε (Option Receipt)).Keeps
      (judged service Asked lane) kept :=
  fun _ hs => (waitForTransactionReceipt_meets h config hash hs).mono fun _ _ ht => ht.1

end

end Judgements

/-! ## The scheme -/

section Scheme

variable {service : Service} {Asked : PaymentRequest → Prop} {lane : Nat} {s : System}
  {ε : Type} {kept : System → Prop}

section

variable (hstable : Stable lane kept)
include hstable

/-- Looking for a journalled hash keeps stable facts. -/
theorem pendingGet_keeps (ctx : Option AuthorizationID) :
    (pendingGet ctx).Keeps (judged service Asked lane) kept := by
  cases ctx with
  | none => exact fun _ hs => hs
  | some id =>
    refine keeps_read rfl hstable fun answer => ?_
    cases answer with
    | error err | ok row => exact fun _ ht => ht

/-- Checking a journalled hash keeps stable facts. -/
theorem pendingSet_keeps (ctx : Option AuthorizationID)
    (hash : Hash) : (pendingSet ctx hash).Keeps (judged service Asked lane) kept :=
  (pendingGet_keeps hstable ctx).bind fun _ => keeps_liftM

/-- Preparing a transaction keeps stable facts. -/
theorem prepare_keeps (config : ChainConfig) (call : ContractCall) (data : List Hex.Byte) :
    (service.prepare config call data).Keeps (judged service Asked lane) kept := by
  refine (rpc_keeps hstable _ _).bind fun chainID => keeps_liftM.bind fun _ => ?_
  refine (rpc_keeps hstable _ _).bind fun nonce => (rpc_keeps hstable _ _).bind fun tip => ?_
  refine (rpc_keeps hstable _ _).bind fun baseFee => keeps_liftM.bind fun _ => ?_
  exact (rpc_keeps hstable _ _).bind fun gas => keeps_liftM.bind fun _ =>
    keeps_pure

/-- The stored hash is that of the stored transaction. -/
theorem sign_meets (tx : UnsignedTransaction) (hs : kept s) :
    (service.sign tx).Sat (judged service Asked lane)
      (fun out t => kept t ∧ ∀ signed, out = .ok signed →
        signed.transactionHash = service.hash signed.rawTransaction) s := by
  refine meets_read rfl hstable hs fun t answer _ ht _ => ?_
  cases answer with
  | none => exact ⟨ht, fun signed heq => by cases heq⟩
  | some value =>
    refine ⟨ht, fun signed heq => ?_⟩
    cases heq
    rfl

end

/-- A settlement that the lane has reserved is under way. -/
structure Underway (lane : Nat) (start : System) (id : AuthorizationID) (digest : Digest)
    (t : System) : Prop where
  since : Since lane start t
  gate : t.gate id.network = some lane
  row : ∃ row, t.rows.lookup id = some row ∧ row.active = true ∧ row.requestDigest = digest

variable {start : System} {id : AuthorizationID} {digest : Digest}

/-- A settlement that is underway stays so while the gate is held. -/
theorem Underway.stable : Stable lane (Underway lane start id digest) := by
  intro s t h hrely
  obtain ⟨row, hrow, hactive, hdigest⟩ := h.row
  exact ⟨h.since.trans hrely.since, hrely.gate _ h.gate, row,
    (hrely.active id row h.gate hactive).mpr hrow, hactive, hdigest⟩

variable {rows rows' : Journal} {row : Settlement}

/-- What is written of a row, when its own authorization is the one that is written. -/
theorem Writes.lookup_self (h : Writes rows rows' row) :
    rows'.lookup row.id = some row := (h row.id).trans (if_pos rfl)

theorem Writes.lookup_of_id (h : Writes rows rows' row)
    (hid : row.id = id) : rows'.lookup id = some row := by
  rw [← hid]
  exact h.lookup_self

variable {t u : System}

/-- A confirmed broadcast keeps a settlement underway. -/
theorem Underway.confirmed {hash : Hash} (h : Underway lane start id digest t)
    (hran : Ran lane (.confirmBroadcast id hash) t u) : Underway lane start id digest u := by
  obtain ⟨row, hrow, hactive, hdigest⟩ := h.row
  refine ⟨h.since.trans hran.since, hran.gate ▸ h.gate, ?_⟩
  cases hran.effect with
  | none same =>
    rw [same]
    exact ⟨row, hrow, hactive, hdigest⟩
  | confirmed old found writes =>
    rw [hrow] at found
    cases found
    have hid : row.id = id := Table.key_of_lookup hrow
    exact ⟨_, writes.lookup_of_id hid, hactive, hdigest⟩

/-- A saved transaction keeps a settlement underway. -/
theorem Underway.saved {signed : SignedTransaction}
    (h : Underway lane start id digest t) (hran : Ran lane (.saveSigned id signed) t u) :
    Underway lane start id digest u := by
  obtain ⟨row, hrow, hactive, hdigest⟩ := h.row
  refine ⟨h.since.trans hran.since, hran.gate ▸ h.gate, ?_⟩
  cases hran.effect with
  | none same =>
    rw [same]
    exact ⟨row, hrow, hactive, hdigest⟩
  | signed old found state unsigned writes =>
    rw [hrow] at found
    cases found
    have hid : row.id = id := Table.key_of_lookup hrow
    exact ⟨_, writes.lookup_of_id hid, rfl, hdigest⟩

/-- A settlement that is underway may be confirmed. -/
theorem Underway.confirms : Confirms lane (some id) (Underway lane start id digest) where
  stable := Underway.stable
  gate := by
    rintro _ ⟨⟩ t ht
    exact ht.gate
  ran := by
    rintro _ ⟨⟩ hash t u ht hran
    exact ht.confirmed hran

/-- The transaction of an authorization. -/
def Signed (id : AuthorizationID) (signed : SignedTransaction) (t : System) : Prop :=
  ∃ row, t.rows.lookup id = some row ∧ row.signed = some signed

theorem Signed.later {signed : SignedTransaction} (h : Signed id signed t)
    (hlater : Later t u) : Signed id signed u := by
  obtain ⟨row, hrow, hsigned⟩ := h
  obtain ⟨row', hrow', hcontinues⟩ := hlater.rows id row hrow
  exact ⟨row', hrow', hcontinues.signed signed hsigned⟩

/-- A transaction that is stored may be sent and confirmed. -/
theorem Confirms.signed (h : Confirms lane (some id) kept) (signed : SignedTransaction) :
    Confirms lane (some id) fun t => kept t ∧ Signed id signed t where
  stable := stable_and h.stable fun _ _ hsigned hrely => hsigned.later hrely.later
  gate other hother t ht := h.gate other hother t ht.1
  ran other hother hash t u ht hran :=
    ⟨h.ran other hother hash t u ht.1 hran, ht.2.later hran.since.later⟩

/-- Sending leaves the journal as it is. -/
def Unsent (kept : System → Prop) : Prop := ∀ t sent, kept t → kept { t with sent := sent }

/-- A stored transaction may be sent. -/
theorem send_meets {signed : SignedTransaction} {post : Except ε Bool → System → Prop}
    (hstable : Stable lane fun t => kept t ∧ Signed id signed t)
    (hs : kept s ∧ Signed id signed s)
    (hpost : ∀ t sent answer, kept t ∧ Signed id signed t →
      post (.ok answer) { t with sent := sent }) :
    (send id signed.rawTransaction : Facilitate ε Bool).Sat
    (judged service Asked lane) post s := by
  refine meets_ask hstable hs (fun t _ ht => ?_) fun t answer u _ ht hserves => ?_
  · obtain ⟨-, row, hrow, hsigned⟩ := ht
    exact ⟨row, signed, hrow, hsigned, rfl⟩
  · cases hserves
    exact hpost t _ answer ht

/-- Broadcasting a stored transaction keeps the facts. -/
theorem broadcast_keeps {signed : SignedTransaction} (h : Confirms lane (some id) kept)
    (hunsent : Unsent kept) :
    (broadcast id signed : Facilitate ε Unit).Keeps (judged service Asked lane)
      fun t => kept t ∧ Signed id signed t := by
  have hsigned := h.signed signed
  refine (guard_keeps hsigned.stable).bind fun active => ?_
  cases active with
  | false => exact keeps_pure
  | true =>
    intro t ht
    refine sat_bind.mpr (send_meets hsigned.stable ht fun u sent answer hu => ?_)
    have hu' : kept { u with sent := sent } ∧ Signed id signed { u with sent := sent } :=
      ⟨hunsent u sent hu.1, hu.2⟩
    cases answer with
    | false => exact hu'
    | true => exact hsigned.tryWrite rfl _ _ hu'

/-- Whether a settlement is underway does not depend on what was sent. -/
theorem Underway.unsent : Unsent (Underway lane start id digest) := by
  intro t sent h
  exact ⟨⟨⟨h.since.later.rows, h.since.later.final⟩, h.since.found, h.since.gated,
    h.since.gate⟩, h.gate, h.row⟩

/-- A transaction that was saved is stored. -/
theorem signed_of_saved {signed : SignedTransaction} {count : Nat}
    (h : Statement.apply t.rows (.saveSigned id signed) = some (count, u.rows))
    (hcount : count = 1) : Signed id signed u := by
  subst hcount
  simp only [Statement.apply, updateRow] at h
  cases hrow : (t.rows.lookup id).filter fun row =>
      decide (row.state = .reserved) && row.signed.isNone with
  | none =>
    rw [hrow] at h
    cases h
  | some row =>
    obtain ⟨hfound, -⟩ := Option.filter_eq_some_iff.mp hrow
    rw [hrow] at h
    simp only at h
    split_ifs at h
    obtain ⟨-, hrows⟩ := Prod.mk.inj (Option.some.inj h)
    have hid := Table.key_of_lookup hfound
    refine ⟨{ row with signed := some signed, broadcastStatus := .unknown, state := .signed }, ?_,
      rfl⟩
    rw [← hrows]
    exact (writes_put row (hid ▸ hfound)).lookup_of_id hid

/-- **Writing a contract**: what is sent is stored before. -/
theorem writeContract_keeps (config : ChainConfig) (call : ContractCall) :
    (service.writeContract config (some id) call).Keeps (judged service Asked lane)
      (Underway lane start id digest) := by
  refine keeps_liftM.bind fun _ => ?_
  cases call.packed with
  | none => exact fun _ hs => hs
  | some data =>
    refine (guarded_keeps Underway.stable).bind fun _ => ?_
    refine (prepare_keeps Underway.stable config call data).bind fun tx s hs => ?_
    refine sat_bind.mpr ((sign_meets Underway.stable tx hs).mono ?_)
    rintro (err | signed) t ⟨ht, hhash⟩
    · exact ht
    · refine (guarded_keeps Underway.stable).bind (fun _ u hu => ?_) t ht
      refine sat_bind.mpr (meets_write Underway.stable hu
        (fun v hinv hv => lawful_saveSigned hinv hv.gate (hhash signed rfl))
        (fun v w hv hran => hv.saved hran) fun v w count _ hv hran happly => ?_)
      have hw := hv.saved hran
      refine sat_check (fun _ hcount => ?_) fun _ => hw
      have hsigned := signed_of_saved happly (not_not.mp (failIf_eq_ok.mp hcount))
      refine sat_bind.mpr ((broadcast_keeps Underway.confirms Underway.unsent w
        ⟨hw, hsigned⟩).mono ?_)
      rintro (err | _) x hx
      · exact hx.1
      · exact hx.1

/-- The scheme with an authorization. -/
theorem adapter_keeps (config : ChainConfig) (request : schemeInterface.Request) :
    (service.adapter config (some id) request : Facilitate ε _).Keeps (judged service Asked lane)
      (Underway lane start id digest) := by
  cases request with
  | view query => exact keeps_read rfl Underway.stable fun _ => keeps_pure
  | sendTransaction => exact keeps_pure
  | writeContract call => exact (writeContract_keeps config call).attempt
  | waitForTransactionReceipt hash =>
    exact waitForTransactionReceipt_keeps Underway.confirms config hash
  | pendingGet => exact (pendingGet_keeps Underway.stable _).attempt
  | pendingSet hash => exact (pendingSet_keeps Underway.stable _ hash).attempt
  | pendingDelete => exact keeps_pure

/-- Without a settlement the adapter only reads. -/
theorem adapter_reads (hstable : Stable lane kept) (config : ChainConfig)
    (request : schemeInterface.Request) :
    (service.adapter config none request : Facilitate ε _).Keeps (judged service Asked lane)
      kept := by
  cases request with
  | view query => exact keeps_read rfl hstable fun _ => keeps_pure
  | sendTransaction => exact keeps_pure
  | writeContract call =>
    refine Keeps.attempt (keeps_liftM.bind fun _ => ?_)
    cases call.packed with
    | none | some data => exact fun _ hs => hs
  | waitForTransactionReceipt hash =>
    exact waitForTransactionReceipt_keeps (confirms_none hstable) config hash
  | pendingGet => exact (pendingGet_keeps hstable _).attempt
  | pendingSet hash => exact (pendingSet_keeps hstable _ hash).attempt
  | pendingDelete => exact keeps_pure

end Scheme

end Facilitator
