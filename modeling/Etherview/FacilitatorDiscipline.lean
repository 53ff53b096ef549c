import Etherview.FacilitatorOutcomes

/-! # Runs of the facilitator

    Any interleaving of settle calls, monitors and rebroadcasts, with crashes, from an empty
    journal.  `journal_disciplined` is what the journal keeps along a run,
    `outcomes_truthful` what its rows and the answers say about the chain, and
    `success_paid_once` what an answer with success stands for. -/

namespace Facilitator

open Relational Interaction Transact Function

/-- Nothing has happened yet. -/
structure System.Blank (s : System) : Prop where
  rows : s.rows = Table.empty
  sent : s.sent = []
  answers : s.answers = []

/-- The lanes and the system. -/
abbrev Configuration := (Nat → Option (Facilitate Empty Unit)) × System

/-- No call runs. -/
def idle (s : System) : Configuration := (fun _ => none, s)

/-- Runs with crashes. -/
def Reach (service : Service) (Asked : PaymentRequest → Prop) :
    Configuration → Configuration → Prop :=
  CrashReach (world service Asked) Environment (Started service Asked) Crash

section Runs

variable {service : Service} {Asked : PaymentRequest → Prop} {start : System}

theorem System.Blank.inv (h : start.Blank) : Inv service Asked start where
  rows id row hrow := by
    rw [h.rows] at hrow
    cases hrow
  single id id' row row' hrow := by
    rw [h.rows] at hrow
    cases hrow
  sent sending hmem := by
    rw [h.sent] at hmem
    cases hmem
  answers answered hmem := by
    rw [h.answers] at hmem
    cases hmem

/-- **Every run** keeps the invariant, and what is later goes on from what was. -/
theorem reach_inv (hstart : start.Blank) {c c' : Configuration}
    (hc : Reach service Asked (idle start) c) (hc' : Reach service Asked c c') :
    Inv service Asked c.2 ∧ Inv service Asked c'.2 ∧ Later c.2 c'.2 := by
  have hcrash : ∀ s t, Inv service Asked s → Crash s t → Inv service Asked t ∧ Later s t :=
    fun _ _ hinv h => crash_step hinv h
  have hrule := facilitator_rule service Asked
  have hfirst := (crash_safe hrule hcrash (lanesInv_idle hstart.inv) hc).1
  obtain ⟨hsecond, hlater⟩ := crash_safe hrule hcrash hfirst hc'
  exact ⟨hfirst.1, hsecond.1, hlater⟩

/-- Two rows under way of one chain are one row. -/
theorem Inv.single_row {s : System} (h : Inv service Asked s) {row other : Settlement}
    (hrow : row ∈ s.rows.rows) (hother : other ∈ s.rows.rows) (hactive : row.active = true)
    (hactive' : other.active = true) (hnetwork : row.network = other.network) : row = other := by
  have hlookup := s.rows.lookup_key hrow
  have hlookup' := s.rows.lookup_key hother
  have hnet : row.id.network = other.id.network := by
    rw [← (h.rows _ row hlookup).network, ← (h.rows _ other hlookup').network, hnetwork]
  exact s.rows.eq_of_key hrow hother (h.single _ _ row other hlookup hlookup' hactive hactive' hnet)

/-- What was sent was in the journal. -/
theorem Stored.found_row {rows : Journal} {sending : Sending} (h : Stored rows sending) :
    ∃ row signed, sending.found = some row ∧ row.id = sending.id ∧ row.signed = some signed
      ∧ signed.rawTransaction = sending.rawTransaction ∧ row.state ≠ .reserved := by
  obtain ⟨row, signed, hfound, hsigned, hraw, hstate, row', hrow', hcontinues⟩ := h
  have hid : row'.id = sending.id := Table.key_of_lookup hrow'
  exact ⟨row, signed, hfound, hcontinues.id.symm.trans hid, hsigned, hraw, hstate⟩

end Runs

/-! ## The journal -/

/-- **The discipline of the journal.**  In every state of every run: one settlement under way
    for each chain; a stored transaction stays; what was sent was stored before; an ended row
    stays as it is.  A call that came after the end of its row gets an error if its digest is
    another one.  Otherwise what it gets is the stored response iff the gate was free for it,
    or the text of the response has an amount; else the amount of the request is added. -/
theorem journal_disciplined (service : Service) (start : System) (hstart : start.Blank)
    (c c' : Configuration) (hc : Reach service (fun _ => True) (idle start) c)
    (hc' : Reach service (fun _ => True) c c') :
    (∀ row ∈ c.2.rows.rows, ∀ other ∈ c.2.rows.rows, row.active = true →
      other.active = true →
      row.network = other.network → row = other)
    ∧ (∀ id row signed, c.2.rows.lookup id = some row → row.signed = some signed →
      ∃ row', c'.2.rows.lookup id = some row' ∧ row'.signed = some signed)
    ∧ (∀ sending ∈ c.2.sent, ∃ row signed, sending.found = some row ∧ row.id = sending.id
      ∧ row.signed = some signed ∧ signed.rawTransaction = sending.rawTransaction
      ∧ row.state ≠ .reserved)
    ∧ (∀ id row, c.2.rows.lookup id = some row → row.active = false →
      ∃ row', c'.2.rows.lookup id = some row' ∧ row'.state = row.state
        ∧ row'.response = row.response)
    ∧ (∀ answered ∈ c.2.answers, ∀ row, answered.found = some row → row.active = false →
      ∀ response, answered.result = .ok response →
        row.requestDigest = service.digest answered.request
          ∧ ∃ stored, row.response = some stored
          ∧ response = service.replay answered.gated stored answered.request
          ∧ (response = stored ↔
            answered.gated = true ∨ (service.OmitsAmounts → stored.amount ≠ none))) := by
  obtain ⟨hinv, -, hlater⟩ := reach_inv hstart hc hc'
  refine ⟨fun row hrow other hother => hinv.single_row hrow hother,
    fun id row signed hrow hsigned =>
    ?_, fun sending hmem => (hinv.sent sending hmem).found_row, fun id row hrow hended => ?_,
    fun answered hmem row hfound hended response hresult => ?_⟩
  · obtain ⟨row', hrow', hcontinues⟩ := hlater.rows id row hrow
    exact ⟨row', hrow', hcontinues.signed signed hsigned⟩
  · obtain ⟨row', hrow', hcontinues⟩ := hlater.rows id row hrow
    obtain ⟨hstate, hresponse, -⟩ := hcontinues.ended hended
    exact ⟨row', hrow', hstate, hresponse⟩
  · obtain ⟨hdigest, stored, hstored, hreplay⟩ :=
      (hinv.answers answered hmem).keeps row hfound hended response hresult
    refine ⟨hdigest, stored, hstored, hreplay, ?_⟩
    rw [hreplay]
    exact service.replay_eq_iff answered.gated stored answered.request

/-! ## The chain -/

section Truth

variable {service : Service} {Asked : PaymentRequest → Prop} {s t : System} {id : AuthorizationID}

variable {row : Settlement}

/-- A successful row saw the transfer of its own request. -/
theorem Inv.succeeded (hinv : Inv service Asked s)
    (hdigest : Set.InjOn service.digest {request | Asked request})
    (hrow : s.rows.lookup id = some row) (hstate : row.state = .succeeded) :
    ∃ signed receipt, row.signed = some signed
      ∧ s.final (service.hash signed.rawTransaction) = some receipt
        ∧ receipt.status = .succeeded
      ∧ receipt.transfers row.request = true := by
  have hok := hinv.rows id row hrow
  have htruthful := hok.truthful
  rw [Settlement.Truthful, hstate] at htruthful
  obtain ⟨-, signed, receipt, request, -, -, hsigned, hseen, hstatus, hasked, hrequest, hlog⟩ :=
    htruthful
  have hsame : request = row.request := hdigest hasked hok.asked (hrequest.trans hok.requestDigest)
  subst hsame
  rw [hok.hash signed hsigned] at hseen
  exact ⟨signed, receipt, hsigned, hseen, hstatus, hlog⟩

variable {sending : Sending}

/-- What is sent for an authorization later is what its row stores then. -/
theorem Inv.sent_signed (hinv : Inv service Asked t)
    (hmem : sending ∈ t.sent) : ∃ row signed, t.rows.lookup sending.id = some row
      ∧ row.signed = some signed ∧ signed.rawTransaction = sending.rawTransaction := by
  obtain ⟨row, signed, -, hsigned, hraw, -, row', hrow', hcontinues⟩ := hinv.sent sending hmem
  exact ⟨row', signed, hrow', hcontinues.signed signed hsigned, hraw⟩

/-- After a failure nothing is sent, or the transaction was reverted. -/
theorem Inv.failed (hinv : Inv service Asked s) (hinv' : Inv service Asked t) (hlater : Later s t)
    (hrow : s.rows.lookup id = some row) (hstate : row.state = .failed) :
    (row.signed = none ∧ ∀ sending ∈ t.sent, sending.id ≠ id)
      ∨ ∃ signed receipt, row.signed = some signed
        ∧ s.final (service.hash signed.rawTransaction) = some receipt
        ∧ receipt.status = .reverted := by
  have hok := hinv.rows id row hrow
  have htruthful := hok.truthful
  rw [Settlement.Truthful, hstate] at htruthful
  rcases htruthful.2 with hnone | ⟨signed, receipt, hsigned, hseen, hstatus⟩
  · refine .inl ⟨hnone, fun sending hmem hid => ?_⟩
    subst hid
    obtain ⟨row', signed, hrow', hsigned, -⟩ := hinv'.sent_signed hmem
    obtain ⟨row'', hrow'', hcontinues⟩ := hlater.rows _ row hrow
    have hended : row.active = false := by rw [Settlement.active, hstate]
    rw [hrow''] at hrow'
    cases hrow'
    rw [(hcontinues.ended hended).2.2, hnone] at hsigned
    cases hsigned
  · rw [hok.hash signed hsigned] at hseen
    exact .inr ⟨signed, receipt, hsigned, hseen, hstatus⟩

/-- After a failure no transaction of the authorization succeeds. -/
theorem Inv.no_transfer (hinv : Inv service Asked s) (hinv' : Inv service Asked t)
    (hlater : Later s t) (hfailed : ∃ row, s.rows.lookup id = some row ∧ row.state = .failed)
    (hmem : sending ∈ t.sent) (hid : sending.id = id) {receipt : Receipt}
    (hreceipt : t.final (service.hash sending.rawTransaction) = some receipt) :
    receipt.status ≠ .succeeded := by
  obtain ⟨row, hrow, hstate⟩ := hfailed
  rcases hinv.failed hinv' hlater hrow hstate with
    ⟨-, hnone⟩ | ⟨signed, reverted, hsigned, hseen, hstatus⟩
  · exact absurd hid (hnone sending hmem)
  · -- the row still stores the transaction that was reverted, and only that was sent
    obtain ⟨row', signed', hrow', hsigned', hraw⟩ := hinv'.sent_signed hmem
    obtain ⟨row'', hrow'', hcontinues⟩ := hlater.rows _ row hrow
    rw [hid, hrow''] at hrow'
    cases hrow'
    rw [hcontinues.signed signed hsigned] at hsigned'
    cases hsigned'
    have hfinal := hlater.final _ _ hseen
    rw [hraw, hreceipt] at hfinal
    cases hfinal
    rw [hstatus]
    decide

end Truth

/-- **The outcomes are truthful.**  The requests that are made have different digests.  A
    succeeded row stores a transaction that made exactly the transfer of its request; after a
    failure nothing is ever sent, or the stored transaction was reverted; and after an answer
    with a final failure, other than that the payment does not verify, no transaction that
    the facilitator sends for the authorization succeeds. -/
theorem outcomes_truthful (service : Service) (Asked : PaymentRequest → Prop)
    (hdigest : Set.InjOn service.digest {request | Asked request}) (start : System)
    (hstart : start.Blank) (c c' : Configuration) (hc : Reach service Asked (idle start) c)
    (hc' : Reach service Asked c c') :
    (∀ id row, c.2.rows.lookup id = some row → row.state = .succeeded →
      ∃ signed receipt, row.signed = some signed
        ∧ c.2.final (service.hash signed.rawTransaction) = some receipt
        ∧ receipt.status = .succeeded ∧ receipt.transfers row.request = true)
    ∧ (∀ id row, c.2.rows.lookup id = some row → row.state = .failed →
      (row.signed = none ∧ ∀ sending ∈ c'.2.sent, sending.id ≠ id)
        ∨ ∃ signed receipt, row.signed = some signed
          ∧ c.2.final (service.hash signed.rawTransaction) = some receipt
          ∧ receipt.status = .reverted)
    ∧ (∀ answered ∈ c.2.answers, ∀ response, answered.result = .ok response →
      response.FinalFailure → ∀ sending ∈ c'.2.sent,
        sending.id = service.authorizationID answered.request → ∀ receipt,
        c'.2.final (service.hash sending.rawTransaction) = some receipt →
        receipt.status ≠ .succeeded) := by
  obtain ⟨hinv, hinv', hlater⟩ := reach_inv hstart hc hc'
  refine ⟨fun id row hrow hstate => hinv.succeeded hdigest hrow hstate,
    fun id row hrow hstate => hinv.failed hinv' hlater hrow hstate, ?_⟩
  intro answered hanswered response hresult hfailure sending hmem hid receipt hreceipt
  have hfailed := (hinv.answers answered hanswered).failed response hresult hfailure
  exact hinv.no_transfer hinv' hlater hfailed hmem hid hreceipt

/-- **A success is paid, and paid once.**  A call that was answered with success has a
    succeeded row, whose transaction is final and made the transfer of its request; and
    whatever is sent for the authorization, at any time and by whichever call, monitor or
    rebroadcast, is that transaction. -/
theorem success_paid_once (service : Service) (Asked : PaymentRequest → Prop)
    (hdigest : Set.InjOn service.digest {request | Asked request}) (start : System)
    (hstart : start.Blank) (c c' : Configuration) (hc : Reach service Asked (idle start) c)
    (hc' : Reach service Asked c c') : ∀ answered ∈ c.2.answers, ∀ response,
      answered.result = .ok response → response.success = true → ∃ row signed receipt,
        c.2.rows.lookup (service.authorizationID answered.request) = some row
        ∧ row.state = .succeeded ∧ row.signed = some signed
        ∧ c.2.final (service.hash signed.rawTransaction) = some receipt
        ∧ receipt.status = .succeeded ∧ receipt.transfers row.request = true
        ∧ ∀ sending ∈ c'.2.sent, sending.id = service.authorizationID answered.request →
          sending.rawTransaction = signed.rawTransaction := by
  obtain ⟨hinv, hinv', hlater⟩ := reach_inv hstart hc hc'
  intro answered hmem response hresult hsuccess
  obtain ⟨row, hrow, hstate⟩ := (hinv.answers answered hmem).succeeded response hresult hsuccess
  obtain ⟨signed, receipt, hsigned, hfinal, hstatus, hlog⟩ := hinv.succeeded hdigest hrow hstate
  refine ⟨row, signed, receipt, hrow, hstate, hsigned, hfinal, hstatus, hlog, ?_⟩
  intro sending hsent hid
  -- the row goes on with the transaction it has, and only what it has is sent
  obtain ⟨row', signed', hrow', hsigned', hraw⟩ := hinv'.sent_signed hsent
  obtain ⟨later, hrow'', hcontinues⟩ := hlater.rows _ row hrow
  rw [hid, hrow''] at hrow'
  cases hrow'
  rw [hcontinues.signed signed hsigned] at hsigned'
  cases hsigned'
  exact hraw.symm

/-! ## Some calls -/

/-- The request of a payer with a nonce. -/
def examplePayment (nonce : Nat) : PaymentRequest :=
  ⟨"eip155:1", .eip3009, 1, 2, 10, 3, nonce, ""⟩

/-- A chain with one token. -/
def exampleChain : ChainConfig := ⟨"eip155:1", 9, [1], 100, 1000, 1⟩

/-- A scheme that asks the chain whether it is to accept and whether it is to write.  The
    text of a response leaves out an empty reason, payer or amount, as that of the client
    type in `internal/billing/x402wire` does. -/
def exampleService : Service where
  chains network := if network = "eip155:1" then some exampleChain else none
  networkID _ := some 1
  digest request := BitVec.ofNat 256 request.nonce
  hash raw := BitVec.ofNat 256 (raw.tx.nonce + 1)
  sender _ := some 9
  omitted := ⟨false, true, true, false, false, true⟩
  permit2 := 0
  permit2Proxy := 0
  verify _ := .ask (.view "verify" : SchemeRequest) fun (answer : Option String) =>
    .done (decide (answer = some "yes"))
  settle _ := .ask (.view "write" : SchemeRequest) fun (answer : Option String) =>
    if answer = some "yes" then
      .ask (.writeContract ⟨1, "transferWithAuthorization", [], some []⟩ : SchemeRequest)
        fun _ => .done ()
    else .done ()

/-- A node and a journal that answer everything; the scheme is told what to do. -/
def reply (lane : Nat) (verifies writes : Bool) : (request : Request) → System →
    facilitatorInterface.Answer request × System
  | .arrive id, s => ((), { s with
      found := Function.update s.found lane (s.rows.lookup id)
      gated := Function.update s.gated lane false })
  | .answer request result, s =>
    ((), { s with answers := s.answers ++ [⟨request, s.found lane, s.gated lane, result⟩] })
  | .healthy _, s => (true, s)
  | .guard, s => (true, s)
  | .tryGate network, s =>
    if s.gate network = none then
      (true, { s with
        gate := Function.update s.gate network (some lane)
        gated := Function.update s.gated lane true })
    else (false, s)
  | .awaitGate network, s =>
    if s.gate network = none then
      (true, { s with gate := Function.update s.gate network (some lane) })
    else (false, s)
  | .releaseGate network, s => ((), { s with gate := Function.update s.gate network none })
  | .get id, s => ((s.rows.lookup id).elim (.error .noRows) .ok, s)
  | .pendingCount network, s => (some (pendingCount s.rows network), s)
  | .pending network, s => (some (pendingRows s.rows network), s)
  | .write statement, s =>
    match statement.apply s.rows with
    | none => (none, s)
    | some (count, rows) => (some count, { s with rows := rows })
  | .rpc _, s => (some 1, s)
  | .view query, s =>
    (some (if (if query = "verify" then verifies else writes) then "yes" else "no"), s)
  | .send id raw, s => (true, { s with sent := s.sent ++ [⟨id, raw, s.rows.lookup id⟩] })
  | .ticks, s => ((1 : Nat), s)
  | .observe _ _, s => ((⟨.error .notReady, none, none⟩ : Observation), s)

/-- These are answers that the system may give. -/
theorem reply_serves (lane : Nat) (verifies writes : Bool) (request : Request) (s : System) :
    Serves lane request s (reply lane verifies writes request s).1
      (reply lane verifies writes request s).2 := by
  cases request with
  | arrive id => rfl
  | answer request result => rfl
  | healthy network => rfl
  | guard => rfl
  | tryGate network =>
    by_cases hfree : s.gate network = none
    · simp only [reply, if_pos hfree]
      exact .inl ⟨rfl, hfree, rfl⟩
    · simp only [reply, if_neg hfree]
      exact .inr ⟨rfl, hfree, rfl⟩
  | awaitGate network =>
    by_cases hfree : s.gate network = none
    · simp only [reply, if_pos hfree]
      exact .inl ⟨rfl, hfree, rfl⟩
    · simp only [reply, if_neg hfree]
      exact .inr ⟨rfl, rfl⟩
  | releaseGate network => rfl
  | get id | pendingCount network | pending network => exact ⟨rfl, .inr rfl⟩
  | write statement =>
    simp only [reply]
    cases happly : statement.apply s.rows with
    | none => exact .inl ⟨rfl, rfl⟩
    | some result => exact .inr ⟨result.1, result.2, happly, .inr rfl, rfl⟩
  | rpc read => rfl
  | view query => rfl
  | send id raw => rfl
  | ticks => rfl
  | observe config hash =>
    refine ⟨rfl, fun receipt hround => ?_⟩
    cases hround

/-- The first steps of a settle call. -/
def callFrom (lane : Nat) (verifies writes : Bool) (nonce steps : Nat) (s : System) :
    Facilitate Empty Unit × System :=
  (exampleService.settleCall exampleChain (examplePayment nonce)).advance
    (reply lane verifies writes) (fun _ _ => true) steps s

theorem reach_callFrom {Asked : PaymentRequest → Prop} (lane : Nat) (verifies writes : Bool)
    (nonce steps : Nat) {c : Configuration} {lanes : Nat → Option (Facilitate Empty Unit)}
    {s : System} (hasked : Asked (examplePayment nonce))
    (h : LanesReach (world exampleService Asked) Environment (Started exampleService Asked) c
      (lanes, s)) (hfree : lanes lane = none) :
    LanesReach (world exampleService Asked) Environment (Started exampleService Asked) c
      (update lanes lane (some (callFrom lane verifies writes nonce steps s).1),
        (callFrom lane verifies writes nonce steps s).2) := by
  have hcall : Started exampleService Asked
      (exampleService.settleCall exampleChain (examplePayment nonce)) := .settleCall hasked rfl
  have hstart := h.tail (.start lane hfree hcall)
  exact lanesReach_advance (fun request s _ => reply_serves lane verifies writes request s) steps
    hstart

/-- An empty journal, and nothing under way. -/
def blankSystem : System :=
  ⟨Table.empty, fun _ => none, fun _ => none, fun _ => none, fun _ => false, [], []⟩

theorem blankSystem_blank : blankSystem.Blank := ⟨rfl, rfl, rfl⟩

/-! ### A response that grows

    The first payment is refused by the scheme; while another one holds the gate, the first
    one comes again. -/

/-- The first payment. -/
def refused : Facilitate Empty Unit × System := callFrom 0 true false 1 40 blankSystem

/-- Another one, which has the gate. -/
def refusedBusy : Facilitate Empty Unit × System := callFrom 1 true true 2 4 refused.2

/-- The first one again. -/
def refusedAgain : Facilitate Empty Unit × System := callFrom 2 true true 1 40 refusedBusy.2

/-- The row of the first payment. -/
def refusedRow : Settlement :=
  { (exampleService.reservation exampleChain (examplePayment 1)).row with
    state := .failed, response := some (settlementRejected (examplePayment 1)) }

theorem refusedAgain_reach : Reach exampleService (fun _ => True) (idle blankSystem)
    (update (update (update (fun _ => none) 0 (some refused.1)) 1
      (some refusedBusy.1)) 2 (some refusedAgain.1), refusedAgain.2) := by
  have hfirst := reach_callFrom 0 true false 1 40 trivial
    (Relation.ReflTransGen.refl : LanesReach (world exampleService fun _ => True) Environment
      (Started exampleService fun _ => True) (idle blankSystem) (idle blankSystem)) rfl
  have hsecond := reach_callFrom 1 true true 2 4 trivial hfirst rfl
  exact (reach_callFrom 2 true true 1 40 trivial hsecond rfl).crashReach

/-- The call that came after the end of its row gets a response that is not the stored
    one. -/
theorem stored_response_grows : ∃ c, Reach exampleService (fun _ => True) (idle blankSystem) c
    ∧ ∃ answered ∈ c.2.answers, ∃ row stored response, answered.found = some row
      ∧ row.active = false ∧ row.requestDigest = exampleService.digest answered.request
      ∧ row.response = some stored ∧ answered.result = .ok response
        ∧ response ≠ stored := by
  refine ⟨_, refusedAgain_reach, ⟨examplePayment 1, some refusedRow, false,
    .ok (refusal (examplePayment 1) "settlement_rejected")⟩, ?_, refusedRow,
    settlementRejected (examplePayment 1), refusal (examplePayment 1) "settlement_rejected", rfl,
    rfl, rfl, rfl, rfl, by decide⟩
  have hanswers : refusedAgain.2.answers[1]? = some ⟨examplePayment 1, some refusedRow, false,
      .ok (refusal (examplePayment 1) "settlement_rejected")⟩ := by decide +kernel
  exact List.mem_of_getElem? hanswers

/-- The second payment of the run has the gate, and nothing is under way; the first one is
    answered without the gate. -/
theorem journal_disciplined_refused :
    refusedAgain.2.gate "eip155:1" = some 1 ∧ refusedAgain.2.rows.rows = [refusedRow]
      ∧ refusedAgain.2.answers.map Answered.gated = [true, false]
      ∧ ∀ answered ∈ refusedAgain.2.answers, ∀ row, answered.found = some row →
        row.active = false → ∀ response, answered.result = .ok response →
          row.requestDigest = exampleService.digest answered.request
            ∧ ∃ stored, row.response = some stored
              ∧ response = exampleService.replay answered.gated stored answered.request
              ∧ (response = stored ↔
                answered.gated = true
                  ∨ (exampleService.OmitsAmounts → stored.amount ≠ none)) :=
  ⟨by decide +kernel, by decide +kernel, by decide +kernel, (journal_disciplined exampleService
    blankSystem blankSystem_blank _ _ refusedAgain_reach .refl).2.2.2.2⟩

/-! ### A failure that leaves no trace

    The payment does not verify at first; later it does, and its transaction is final. -/

/-- The call that does not verify. -/
def unverified : Facilitate Empty Unit × System := callFrom 0 false true 1 40 blankSystem

/-- The call that does. -/
def verifiedLater : Facilitate Empty Unit × System := callFrom 1 true true 1 60 unverified.2

/-- What was sent. -/
def exampleTransaction : RawTransaction := ⟨⟨1, 1, 1, 3, 1, 1, []⟩, 1⟩

/-- A receipt with the transfer of a request over 10. -/
def transferReceipt : Receipt :=
  ⟨2, 7, some 5, .succeeded, [⟨1, [transferTopic, Address.topic 3, Address.topic 2],
    List.replicate 31 0 ++ [10]⟩]⟩

/-- Its transaction is final. -/
def transferred : System := { verifiedLater.2 with
    final := Function.update verifiedLater.2.final (exampleService.hash exampleTransaction)
      (some transferReceipt) }

theorem transferred_final :
    transferred.final (exampleService.hash exampleTransaction) = some transferReceipt := by
  simp only [transferred, update_self]

/-- The only request. -/
def OnlyExample (request : PaymentRequest) : Prop := request = examplePayment 1

theorem transferred_reach : Reach exampleService OnlyExample (idle blankSystem)
    (update (update (fun _ => none) 0 (some unverified.1)) 1
      (some verifiedLater.1), transferred) := by
  have hasked : OnlyExample (examplePayment 1) := rfl
  have hfirst := reach_callFrom 0 false true 1 40 hasked
    (Relation.ReflTransGen.refl : LanesReach (world exampleService OnlyExample) Environment
      (Started exampleService OnlyExample) (idle blankSystem) (idle blankSystem)) rfl
  have hsecond := reach_callFrom 1 true true 1 60 hasked hfirst rfl
  have henv : Environment verifiedLater.2 transferred :=
    ⟨exampleService.hash exampleTransaction, transferReceipt, by decide +kernel, rfl⟩
  exact LanesReach.crashReach (hsecond.tail (.env henv))

/-- An answer that the payment failed, and a successful transfer of the same authorization
    after it. -/
theorem refused_then_transferred : ∃ c, Reach exampleService OnlyExample (idle blankSystem) c
    ∧ ∃ answered ∈ c.2.answers, ∃ response sending receipt,
      answered.result = .ok response ∧ response.success = false
      ∧ response.errorReason ≠ "settlement_pending" ∧ c.2.sent = [sending]
      ∧ sending.id = exampleService.authorizationID answered.request
      ∧ c.2.final (exampleService.hash sending.rawTransaction) = some receipt
      ∧ receipt.status = .succeeded ∧ receipt.transfers answered.request = true := by
  refine ⟨_, transferred_reach, ⟨examplePayment 1, none, true,
    .ok (verificationFailed (examplePayment 1))⟩, ?_, verificationFailed (examplePayment 1), ?_⟩
  · have hanswers : verifiedLater.2.answers[0]? = some ⟨examplePayment 1, none, true,
        .ok (verificationFailed (examplePayment 1))⟩ := by decide +kernel
    exact List.mem_of_getElem? hanswers
  · refine ⟨⟨exampleService.authorizationID (examplePayment 1), exampleTransaction,
      verifiedLater.2.sent[0]?.bind Sending.found⟩, transferReceipt, rfl, rfl, by decide, ?_, rfl,
      ?_, rfl, by decide +kernel⟩
    · show verifiedLater.2.sent = _
      decide +kernel
    · exact transferred_final

/-- The node also reports what is final. -/
def replyFinal (lane : Nat) : (request : Request) → System →
    facilitatorInterface.Answer request × System
  | .observe _ hash, s => (((s.final hash).elim ⟨.error .notReady, none, none⟩ fun receipt =>
      ⟨.ok receipt, receipt.blockNumber, some receipt.blockHash⟩ : Observation), s)
  | request, s => reply lane true true request s

/-- These are answers that the system may give. -/
theorem replyFinal_serves (lane : Nat) (request : Request) (s : System) :
    Serves lane request s (replyFinal lane request s).1 (replyFinal lane request s).2 := by
  cases request with
  | observe config hash =>
    refine ⟨rfl, fun receipt hround => ?_⟩
    cases hfinal : s.final hash with
    | none => simp [replyFinal, hfinal, Observation.round] at hround
    | some found =>
      simp only [replyFinal, hfinal, Option.elim_some, Observation.round] at hround
      split at hround
      · cases hround
      · split_ifs at hround
        cases hround
        rfl
  | _ => exact reply_serves lane true true _ s

/-- A payment is asked for once more. -/
def settleAgain (nonce : Nat) (s : System) : Facilitate Empty Unit × System :=
  (exampleService.settleCall exampleChain (examplePayment nonce)).advance
    (replyFinal 2) (fun _ _ => true) 80 s

theorem reach_settleAgain {Asked : PaymentRequest → Prop} {nonce : Nat} {s : System}
    {lanes : Nat → Option (Facilitate Empty Unit)} (hasked : Asked (examplePayment nonce))
    (h : Reach exampleService Asked (idle blankSystem) (lanes, s)) (hfree : lanes 2 = none) :
    ∃ lanes', Reach exampleService Asked (idle blankSystem) (lanes', (settleAgain nonce s).2) :=
  ⟨_, h.trans (LanesReach.crashReach (lanesReach_advance
    (fun request s _ => replyFinal_serves 2 request s) 80
    (Relation.ReflTransGen.single (.start 2 hfree (.settleCall hasked rfl)))))⟩

/-- The payment that verified later is asked for once more. -/
def settledAgain : Facilitate Empty Unit × System := settleAgain 1 transferred

/-- The third call is answered with success, for the transaction that the second has sent. -/
theorem success_paid_once_settled : settledAgain.2.sent.length = 1
    ∧ ∃ answered ∈ settledAgain.2.answers, ∃ response raw, answered.result = .ok response
      ∧ response.success = true ∧ ∀ sending ∈ settledAgain.2.sent,
        sending.id = exampleService.authorizationID answered.request →
          sending.rawTransaction = raw := by
  have hdigest : Set.InjOn exampleService.digest {request | OnlyExample request} := by
    rintro a rfl b rfl -
    rfl
  have hasked : OnlyExample (examplePayment 1) := rfl
  obtain ⟨lanes, hreach⟩ := reach_settleAgain hasked transferred_reach rfl
  have hsuccess : (settledAgain.2.answers.any fun answered => match answered.result with
      | .ok response => response.success
      | .error _ => false) = true := by decide +kernel
  obtain ⟨answered, hmem, hok⟩ := List.any_eq_true.mp hsuccess
  split at hok
  next response hresult =>
    obtain ⟨_, signed, _, -, -, -, -, -, -, hsent⟩ :=
      success_paid_once exampleService OnlyExample
      hdigest blankSystem blankSystem_blank _ _ hreach .refl answered hmem response hresult hok
    exact ⟨by decide +kernel, answered, hmem, response, signed.rawTransaction,
      hresult, hok, hsent⟩
  next => cases hok

/-! ### A failure and a success

    The first payment is refused by the scheme.  The second one is sent, becomes final and is
    asked for again. -/

/-- The second payment. -/
def sentSecond : Facilitate Empty Unit × System := callFrom 1 true true 2 60 refused.2

/-- Its transaction is final. -/
def finalSecond : System := { sentSecond.2 with
    final := Function.update sentSecond.2.final (exampleService.hash exampleTransaction)
      (some transferReceipt) }

/-- It is asked for again. -/
def settledSecond : Facilitate Empty Unit × System := settleAgain 2 finalSecond

/-- The two requests. -/
def TwoExamples (request : PaymentRequest) : Prop :=
  request = examplePayment 1 ∨ request = examplePayment 2

/-- The system after a second payment is reached. -/
theorem settledSecond_reach :
    ∃ lanes, Reach exampleService TwoExamples (idle blankSystem) (lanes, settledSecond.2) := by
  have hfirst := reach_callFrom 0 true false 1 40 (.inl rfl : TwoExamples (examplePayment 1))
    (Relation.ReflTransGen.refl : LanesReach (world exampleService TwoExamples) Environment
      (Started exampleService TwoExamples) (idle blankSystem) (idle blankSystem)) rfl
  have hsecond := reach_callFrom 1 true true 2 60 (.inr rfl : TwoExamples (examplePayment 2))
    hfirst rfl
  have henv : Environment sentSecond.2 finalSecond :=
    ⟨exampleService.hash exampleTransaction, transferReceipt, by decide +kernel, rfl⟩
  exact reach_settleAgain (.inr rfl) (LanesReach.crashReach (hsecond.tail (.env henv))) rfl

/-- The first payment has failed for good and nothing was sent for it; the second one has
    succeeded with its transfer. -/
theorem outcomes_truthful_transferred :
    settledSecond.2.rows.rows.map Settlement.state = [.failed, .succeeded]
      ∧ settledSecond.2.sent.length = 1
      ∧ (∀ id row, settledSecond.2.rows.lookup id = some row → row.state = .succeeded →
        ∃ signed receipt, row.signed = some signed
          ∧ settledSecond.2.final (exampleService.hash signed.rawTransaction) = some receipt
          ∧ receipt.status = .succeeded ∧ receipt.transfers row.request = true)
      ∧ (∀ id row, settledSecond.2.rows.lookup id = some row → row.state = .failed →
        (row.signed = none ∧ ∀ sending ∈ settledSecond.2.sent, sending.id ≠ id)
          ∨ ∃ signed receipt, row.signed = some signed
            ∧ settledSecond.2.final (exampleService.hash signed.rawTransaction) = some receipt
            ∧ receipt.status = .reverted)
      ∧ ∃ answered ∈ settledSecond.2.answers, ∃ response, answered.result = .ok response
        ∧ response.FinalFailure ∧ ∀ sending ∈ settledSecond.2.sent,
          sending.id = exampleService.authorizationID answered.request → ∀ receipt,
          settledSecond.2.final (exampleService.hash sending.rawTransaction) = some receipt →
          receipt.status ≠ .succeeded := by
  have hdigest : Set.InjOn exampleService.digest {request | TwoExamples request} := by
    rintro a (rfl | rfl) b (rfl | rfl) h
    · rfl
    · exact absurd h (by decide)
    · exact absurd h (by decide)
    · rfl
  obtain ⟨lanes, hreach⟩ := settledSecond_reach
  obtain ⟨hsucceeded, hfailed, hanswers⟩ := outcomes_truthful exampleService TwoExamples hdigest
    blankSystem blankSystem_blank _ _ hreach .refl
  have hrefused : settledSecond.2.answers[0]? = some ⟨examplePayment 1, none, true,
      .ok (settlementRejected (examplePayment 1))⟩ := by decide +kernel
  have hmem := List.mem_of_getElem? hrefused
  have hfinal : (settlementRejected (examplePayment 1)).FinalFailure := by decide
  exact ⟨by decide +kernel, by decide +kernel, hsucceeded, hfailed, _, hmem, _, rfl, hfinal,
    hanswers _ hmem _ rfl hfinal⟩

end Facilitator
