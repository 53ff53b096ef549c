import Etherview.FacilitatorRuns

/-! # Discipline and truth of the facilitator

    Settle calls, monitors, rebroadcasts and crashes in any order.  The journal has at most
    one settlement under way for each chain, a transaction is stored once and sent only
    after, and an outcome is final; an outcome is what happened on the chain.

    Two things are less than they seem.  An answer that repeats a stored response may add the
    amount of the request to it, because a refused settlement is stored without one and its
    text then leaves the amount out.  And a payment that does not verify is refused without a
    trace, so that it may still be settled later. -/

namespace Facilitator

open Relational Interaction Transact List Prog Function Option

/-! ## Verdicts -/

section Verdicts

variable {service : Service} {Asked : PaymentRequest → Prop} {lane : Nat} {s t u : System}
  {row : Settlement} {start : System}

/-- What a row may be ended with. -/
def Verdict (service : Service) (Asked : PaymentRequest → Prop) (final : Hash → Option Receipt)
    (row : Settlement) (ending : Ending) (response : SettleResponse) : Prop :=
  match ending with
  | .failed => response.success = false
      ∧ (row.signed = none ∨ ∃ signed receipt, row.signed = some signed
          ∧ final signed.transactionHash = some receipt ∧ receipt.status = .reverted)
  | .succeeded => response.success = true ∧ ∃ signed receipt request, row.signed = some signed
      ∧ final signed.transactionHash = some receipt ∧ receipt.status = .succeeded
      ∧ Asked request ∧ service.digest request = row.requestDigest
      ∧ receipt.transfers request = true

variable {ending : Ending} {response : SettleResponse}

/-- A verdict stays right as more receipts become final. -/
theorem Verdict.later {final final' : Hash → Option Receipt}
    (h : Verdict service Asked final row ending response)
    (hfinal : FinalMove final final') : Verdict service Asked final' row ending response := by
  cases ending with
  | failed =>
    refine ⟨h.1, h.2.imp_right ?_⟩
    rintro ⟨signed, receipt, hsigned, hseen, hstatus⟩
    exact ⟨signed, receipt, hsigned, hfinal _ _ hseen, hstatus⟩
  | succeeded =>
    obtain ⟨hsuccess, signed, receipt, request, hsigned, hseen, hrest⟩ := h
    exact ⟨hsuccess, signed, receipt, request, hsigned, hfinal _ _ hseen, hrest⟩

variable {final : Hash → Option Receipt} {old : Settlement}

/-- A row that ends by its verdict is truthful. -/
theorem Verdict.truthful (h : Verdict service Asked final row ending response)
    (hsigned : old.signed = row.signed) (hdigest : old.requestDigest = row.requestDigest) :
    Settlement.Truthful service Asked final
      { old with state := ending.state, response := some response } := by
  cases ending with
  | failed =>
    refine ⟨⟨response, rfl, h.1⟩, ?_⟩
    show old.signed = none ∨ _
    rw [hsigned]
    exact h.2
  | succeeded =>
    obtain ⟨hsuccess, signed, receipt, request, hrow, hseen, hstatus, hasked, hrequest,
      hlog⟩ := h
    exact ⟨response, signed, receipt, request, rfl, hsuccess, hsigned.trans hrow, hseen, hstatus,
      hasked, hrequest.trans hdigest.symm, hlog⟩

/-- The row is in the journal as it was read, up to its broadcast. -/
def Current (row : Settlement) (rows : Journal) : Prop :=
  ∃ row', rows.lookup row.id = some row' ∧ Continues row row' ∧ row'.state = row.state
    ∧ row'.signed = row.signed

/-- A lane with the gate has read a row. -/
structure Reconciling (service : Service) (Asked : PaymentRequest → Prop) (lane : Nat)
    (start : System) (row : Settlement) (t : System) : Prop where
  since : Since lane start t
  gate : t.gate row.id.network = some lane
  ok : RowOk service Asked t.final row
  current : Current row t.rows

variable {id : AuthorizationID}

theorem Reconciling.read (hsince : Since lane start t)
    (hinv : Inv service Asked t) (hrow : t.rows.lookup id = some row)
    (hgate : t.gate id.network = some lane) : Reconciling service Asked lane start row t := by
  have hid : row.id = id := Table.key_of_lookup hrow
  subst hid
  exact ⟨hsince, hgate, hinv.rows _ row hrow, row, hrow, .refl row, rfl, rfl⟩

/-- **The gate keeps a row current.** -/
theorem Reconciling.stable : Stable lane (Reconciling service Asked lane start row) := by
  intro s t h hrely
  obtain ⟨row', hrow', hcontinues, hstate, hsigned⟩ := h.current
  refine ⟨h.since.trans hrely.since, hrely.gate _ h.gate, h.ok.later hrely.later.final, ?_⟩
  cases hactive : row'.active with
  | true =>
    exact ⟨row', (hrely.active _ row' h.gate hactive).mpr hrow', hcontinues, hstate, hsigned⟩
  | false =>
    -- a row that has ended is what it is
    obtain ⟨row'', hrow'', hcontinues'⟩ := hrely.later.rows _ _ hrow'
    obtain ⟨hstate', -, hsigned'⟩ := hcontinues'.ended hactive
    exact ⟨row'', hrow'', hcontinues.trans hcontinues', hstate'.trans hstate,
      hsigned'.trans hsigned⟩

variable {ctx : Option AuthorizationID}

/-- A row that is reconciled may be confirmed. -/
theorem Reconciling.confirms (hctx : ∀ id ∈ ctx, id = row.id) :
    Confirms lane ctx (Reconciling service Asked lane start row) where
  stable := Reconciling.stable
  gate id hid t ht := by
    rw [hctx id hid]
    exact ht.gate
  ran id hid hash t u ht hran := by
    obtain rfl := hctx id hid
    refine ⟨ht.since.trans hran.since, hran.gate ▸ ht.gate, hran.final ▸ ht.ok, ?_⟩
    obtain ⟨row', hrow', hcontinues, hstate, hsigned⟩ := ht.current
    cases hran.effect with
    | none same =>
      rw [same]
      exact ⟨row', hrow', hcontinues, hstate, hsigned⟩
    | confirmed old found writes =>
      rw [hrow'] at found
      cases found
      have hid' : row'.id = row.id := Table.key_of_lookup hrow'
      exact ⟨_, writes.lookup_of_id hid', ⟨hcontinues.id, hcontinues.requestDigest,
        hcontinues.request, hcontinues.signed, hcontinues.ended⟩, hstate, hsigned⟩

variable {rows : Journal}

/-- Ending an active settlement writes its response. -/
theorem finish_applied {rows' : Journal} {count : Nat}
    (hold : rows.lookup id = some old) (hactive : old.active = true)
    (h : Statement.apply rows (.finish id ending response) = some (count, rows')) :
    rows'.lookup id = some { old with state := ending.state, response := some response } := by
  simp only [Statement.apply, updateRow, hold, Option.filter_some, hactive, if_true] at h
  split_ifs at h
  obtain ⟨-, hrows⟩ := Prod.mk.inj (Option.some.inj h)
  have hid : old.id = id := Table.key_of_lookup hold
  rw [← hrows]
  exact (writes_put old (hid ▸ hold)).lookup_of_id hid

/-- What a lane may say about a row that it has read. -/
structure Reported (service : Service) (gated : Bool) (row : Settlement)
    (request : PaymentRequest) (response : SettleResponse) (rows : Journal) : Prop where
  stored : ∀ stored, row.response = some stored →
    response = service.replay gated stored request
  failed : response.FinalFailure → ∃ row', rows.lookup row.id = some row'
    ∧ row'.state = .failed
  succeeded : response.success = true →
    ∃ row', rows.lookup row.id = some row' ∧ row'.state = .succeeded

/-- What `reconcile` leaves behind. -/
def Reconciled (service : Service) (lane : Nat) (start : System) (row : Settlement)
    (request : PaymentRequest) (out : Except OperationError SettleResponse) (t : System) : Prop :=
  Since lane start t ∧ t.gate row.id.network = some lane
    ∧ ∀ response, out = .ok response → Reported service true row request response t.rows

variable {request : PaymentRequest}

/-- **Ending a row** with a verdict. -/
theorem finish_meets (hresponse : row.response = none)
    (haddressed : response.Addressed row.id.network)
    (hs : Reconciling service Asked lane start row s)
    (hverdict : Verdict service Asked s.final row ending response) :
    (do
      let _ ← write (.finish row.id ending response) OperationError.journalUnavailable
      pure response : Facilitate OperationError SettleResponse).Sat (judged service Asked lane)
      (Reconciled service lane start row request) s := by
  refine sat_bind.mpr (meets_write (stable_and Reconciling.stable
      (fun _ _ h hrely => Verdict.later h hrely.later.final)) ⟨hs, hverdict⟩ ?_ ?_ ?_)
  · rintro t hinv ⟨ht, hverdict⟩
    refine lawful_finish hinv ht.gate haddressed fun old hold _ => ?_
    obtain ⟨row', hrow', hcontinues, -, hsigned⟩ := ht.current
    rw [hrow'] at hold
    cases hold
    exact hverdict.truthful hsigned hcontinues.requestDigest
  · rintro t u ⟨ht, -⟩ hran
    exact ⟨ht.since.trans hran.since, hran.gate ▸ ht.gate, fun _ h => by cases h⟩
  · rintro t u count hinv ⟨ht, hverdict⟩ hran happly
    refine ⟨ht.since.trans hran.since, hran.gate ▸ ht.gate, fun other heq => ?_⟩
    cases heq
    obtain ⟨row', hrow', hcontinues, hstate, -⟩ := ht.current
    -- the row had no response when it was read, and only the holder of the gate ends it
    have hactive : row'.active = true := by
      rw [active_congr hstate]
      by_contra hended
      obtain ⟨stored, hstored⟩ := ht.ok.response_of_ended (Bool.not_eq_true _ ▸ hended)
      rw [hresponse] at hstored
      cases hstored
    have hlookup := finish_applied hrow' hactive happly
    refine ⟨fun stored hstored => ?_, fun hfailure => ⟨_, hlookup, ?_⟩, fun hsuccess =>
      ⟨_, hlookup, ?_⟩⟩
    · rw [hresponse] at hstored
      cases hstored
    · cases ending with
      | failed => rfl
      | succeeded =>
        have hsuccess := hverdict.1
        rw [hfailure.1] at hsuccess
        cases hsuccess
    · cases ending with
      | succeeded => rfl
      | failed =>
        have hfailed := hverdict.1
        rw [hsuccess] at hfailed
        cases hfailed

/-- A settlement on its way says nothing final. -/
theorem reported_pending {gated : Bool} {network : Network} {hash : Hash}
    (hresponse : row.response = none) :
    Reported service gated row request (settlementPending request network hash) rows where
  stored stored hstored := by
    rw [hresponse] at hstored
    cases hstored
  failed hfailure := absurd rfl hfailure.2.1
  succeeded hsuccess := by cases hsuccess

variable {stored : SettleResponse}

/-- A stored response is reported as it is. -/
theorem reported_stored {gated : Bool} (hok : RowOk service Asked final row)
    (hresponse : row.response = some stored)
    (hreplay : response = service.replay gated stored request) (hcurrent : Current row rows) :
    Reported service gated row request response rows := by
  obtain ⟨row', hrow', -, hstate, -⟩ := hcurrent
  have hended := hok.ended_of_response hresponse
  have hsame : response.success = stored.success := by
    rw [hreplay]
    cases gated <;> rfl
  refine ⟨fun other hother => ?_, fun hfailure => ⟨row', hrow', hstate.trans ?_⟩,
    fun hsuccess =>
    ⟨row', hrow', hstate.trans ?_⟩⟩
  · rw [hresponse] at hother
    cases hother
    exact hreplay
  · rw [hended, ← hsame, hfailure.1]
    rfl
  · rw [hended, ← hsame, hsuccess]
    rfl

/-- Reconciling reports what is stored in the end. -/
theorem reconcile_meets {config : ChainConfig}
    (hctx : ∀ id ∈ ctx, id = row.id) (hasked : Asked request)
    (hdigest : service.digest request = row.requestDigest)
    (hs : Reconciling service Asked lane start row s) :
    (reconcile config ctx row request).Sat (judged service Asked lane)
      (Reconciled service lane start row request) s := by
  unfold reconcile
  cases hresponse : row.response with
  | some stored =>
    refine ⟨hs.since, hs.gate, fun response heq => ?_⟩
    cases heq
    exact reported_stored hs.ok hresponse rfl hs.current
  | none =>
    cases hsigned : row.signed with
    | none =>
      -- nothing was signed, so nothing can have been paid
      have hhash : row.transactionHash = none := by rw [Settlement.transactionHash, hsigned]; rfl
      rw [hhash]
      exact finish_meets hresponse ⟨rfl, hs.ok.network⟩ hs ⟨rfl, .inl hsigned⟩
    | some signed =>
      have hhash : row.transactionHash = some signed.transactionHash := by
        rw [Settlement.transactionHash, hsigned]; rfl
      rw [hhash]
      refine sat_bind.mpr ((waitForTransactionReceipt_meets (Reconciling.confirms hctx)
        config signed.transactionHash hs).mono ?_)
      rintro (err | _ | receipt) t ⟨ht, hfinal⟩
      · exact ⟨ht.since, ht.gate, fun _ h => by cases h⟩
      · -- ?_⟩ => no receipt until the deadline: the settlement stays pending
        refine ⟨ht.since, ht.gate, fun response heq => ?_⟩
        cases heq
        exact reported_pending hresponse
      · have hseen := hfinal receipt rfl
        show Sat _ _ (if receipt.status = .succeeded then _ else _) t
        by_cases hstatus : receipt.status = .succeeded
        · rw [if_pos hstatus]
          by_cases htransfers : receipt.transfers request = true
          · rw [if_pos htransfers]
            exact finish_meets hresponse ⟨rfl, ht.ok.network⟩ ht
              ⟨rfl, signed, receipt, request, hsigned, hseen,
              hstatus, hasked, hdigest, htransfers⟩
          · -- a receipt without the transfer settles nothing
            rw [if_neg htransfers]
            refine ⟨ht.since, ht.gate, fun response heq => ?_⟩
            cases heq
            exact reported_pending hresponse
        · rw [if_neg hstatus]
          have hreverted : receipt.status = .reverted := by
            cases hcase : receipt.status with
            | reverted => rfl
            | succeeded => exact absurd hcase hstatus
          exact finish_meets hresponse ⟨rfl, ht.ok.network⟩ ht
            ⟨rfl, .inr ⟨signed, receipt, hsigned, hseen, hreverted⟩⟩

/-- **Decoding over the request** adds the amount of the request where the text has none,
    and nothing else: the base has no reason and no transaction, and its network is the
    stored one. -/
theorem over_refusal (omitted : Omitted) (haddressed : stored.Addressed request.network) :
    stored.over omitted (refusal request "") = { stored with
      amount := decoded omitted.amount none stored.amount (some request.amount) } := by
  obtain ⟨success, errorReason, payer, transaction, network, amount⟩ := stored
  obtain ⟨hpayer, hnetwork⟩ := haddressed
  have hpayer' : payer ≠ none := fun h => by rw [h] at hpayer; cases hpayer
  simp only [SettleResponse.over, refusal, decoded_empty, decoded_of_ne _ hpayer',
    ← (show network = request.network from hnetwork), decoded_self]

/-- **Looking at a row** without the gate. -/
theorem observedSettlement_ok {digest : Digest}
    (hok : RowOk service Asked final row) (hrow : rows.lookup row.id = some row)
    (hnetwork : row.id.network = request.network)
    (h : observedSettlement service.omitted row request digest = .ok response) :
    row.requestDigest = digest ∧ Reported service false row request response rows := by
  unfold observedSettlement at h
  by_cases hdigest : row.requestDigest = digest
  · refine ⟨hdigest, ?_⟩
    have hcheck : failIf (row.requestDigest ≠ digest) OperationError.authorizationConflict
        = .ok () := failIf_eq_ok.mpr (not_not.mpr hdigest)
    rw [hcheck] at h
    cases hresponse : row.response with
    | some stored =>
      rw [hresponse] at h
      cases h
      exact reported_stored hok hresponse
        (over_refusal service.omitted (hnetwork ▸ hok.response stored hresponse))
        ⟨row, hrow, .refl row, rfl, rfl⟩
    | none =>
      cases hhash : row.transactionHash with
      | none =>
        rw [hresponse, hhash] at h
        cases h
      | some hash =>
        rw [hresponse, hhash] at h
        cases h
        exact reported_pending hresponse
  · have hcheck : failIf (row.requestDigest ≠ digest) OperationError.authorizationConflict
        = .error .authorizationConflict := if_pos hdigest
    rw [hcheck] at h
    cases h

end Verdicts

/-! ## Settle calls -/

section Calls

variable {service : Service} {Asked : PaymentRequest → Prop} {lane : Nat} {s t : System}
  {config : ChainConfig} {request : PaymentRequest}

/-- The row that the call found has gone on, and whether the call found the gate free. -/
def Came (service : Service) (lane : Nat) (gated : Bool) (request : PaymentRequest)
    (t : System) : Prop :=
  ∀ old, t.found lane = some old → t.gated lane = gated
    ∧ ∃ row, t.rows.lookup (service.authorizationID request) = some row ∧ Continues old row

variable {u : System} {gated : Bool}

theorem Came.since (h : Came service lane gated request t) (hsince : Since lane t u) :
    Came service lane gated request u := by
  intro old hold
  obtain ⟨hgated, row, hrow, hcontinues⟩ := h old (hsince.found.symm.trans hold)
  obtain ⟨row', hrow', hcontinues'⟩ := hsince.later.rows _ _ hrow
  exact ⟨hsince.gated.trans hgated, row', hrow', hcontinues.trans hcontinues'⟩

theorem Came.stable : Stable lane (Came service lane gated request) :=
  fun _ _ h hrely => h.since hrely.since

/-- The answer is in order. -/
def Ends (service : Service) (lane : Nat) (request : PaymentRequest)
    (out : Except OperationError SettleResponse) (t : System) : Prop :=
  AnswerOk service t.rows ⟨request, t.found lane, t.gated lane, out⟩

variable {row : Settlement}

/-- A reported response ends a request rightly. -/
theorem ends_reported {final : Hash → Option Receipt}
    {response : SettleResponse} (hok : RowOk service Asked final row)
    (hid : row.id = service.authorizationID request)
    (hdigest : row.requestDigest = service.digest request)
    (hfound : ∀ old, t.found lane = some old → t.gated lane = gated ∧ Continues old row)
    (hreported : Reported service gated row request response t.rows) :
    Ends service lane request (.ok response) t where
  keeps old hold hended other heq := by
    cases heq
    obtain ⟨hgated, hcontinues⟩ := hfound old hold
    obtain ⟨hstate, hresponse, -⟩ := hcontinues.ended hended
    obtain ⟨stored, hstored⟩ := hok.response_of_ended ((active_congr hstate).trans hended)
    refine ⟨hcontinues.requestDigest.symm.trans hdigest, stored,
      hresponse.symm.trans hstored, ?_⟩
    show response = service.replay (t.gated lane) stored request
    rw [hgated]
    exact hreported.stored stored hstored
  failed other heq hfailure := by
    cases heq
    rw [← hid]
    exact hreported.failed hfailure
  succeeded other heq hsuccess := by
    cases heq
    rw [← hid]
    exact hreported.succeeded hsuccess

/-- What the gate path and the refusals owe at their end. -/
def Settled (service : Service) (lane : Nat) (start : System) (request : PaymentRequest)
    (out : Except OperationError SettleResponse) (t : System) : Prop :=
  Since lane start t ∧ Ends service lane request out t

variable {start : System}

theorem settled_error (hsince : Since lane start t) (err : OperationError) :
    Settled service lane start request (.error err) t := ⟨hsince, answerOk_error _ _ _ err⟩

/-- **A call without the gate** reports what the row says. -/
theorem observe_meets (hs : Since lane start s ∧ Came service lane false request s) : (do
      let row ← getOr (service.authorizationID request) .journalUnavailable
      liftM (observedSettlement service.omitted row request (service.digest request)) :
      Facilitate OperationError SettleResponse).Sat (judged service Asked lane)
      (Settled service lane start request) s := by
  refine sat_bind.mpr (meets_get (stable_and stable_since Came.stable) hs
    (fun t ht => settled_error ht.1 _) fun t row hinv ht hrow => sat_liftM.mpr ?_)
  have hid : row.id = service.authorizationID request := Table.key_of_lookup hrow
  have hok := hinv.rows _ row hrow
  cases hout : observedSettlement service.omitted row request (service.digest request) with
  | error err => exact settled_error ht.1 err
  | ok response =>
    obtain ⟨hdigest, hreported⟩ :=
      observedSettlement_ok hok (hid ▸ hrow) (by rw [hid]; rfl) hout
    refine ⟨ht.1, ends_reported hok hid hdigest (fun old hold => ?_) hreported⟩
    obtain ⟨hgated, row', hrow', hcontinues⟩ := ht.2 old hold
    rw [hrow] at hrow'
    cases hrow'
    exact ⟨hgated, hcontinues⟩

theorem reservation_of (hasked : Asked request) :
    (service.reservation config request).Of service Asked := ⟨rfl, hasked, rfl⟩

theorem rejectUnsubmitted_meets (hasked : Asked request) (reason : String)
    (hs : Since lane start s ∧ Came service lane false request s) :
    (service.rejectUnsubmitted config request reason).Sat (judged service Asked lane)
      (Settled service lane start request) s := by
  refine sat_bind.mpr (meets_write (stable_and stable_since Came.stable) hs
    (fun t _ _ => lawful_rejectUnsubmitted (reservation_of hasked) rfl ⟨rfl, rfl⟩)
    (fun t u ht hran => settled_error (ht.1.trans hran.since) _)
    fun t u count _ ht hran _ => ?_)
  exact observe_meets ⟨ht.1.trans hran.since, ht.2.since hran.since⟩

/-- The lane has the gate, and the call found no row. -/
structure Fresh (lane : Nat) (start : System) (network : Network) (t : System) : Prop where
  since : Since lane start t
  gate : t.gate network = some lane
  found : t.found lane = none

variable {network : Network}

theorem Fresh.stable : Stable lane (Fresh lane start network) := by
  intro s t h hrely
  exact ⟨h.since.trans hrely.since, hrely.gate _ h.gate, hrely.found.trans h.found⟩

theorem Fresh.later (h : Fresh lane start network t)
    (hsince : Since lane t u) : Fresh lane start network u :=
  ⟨h.since.trans hsince, hsince.gate _ h.gate, hsince.found.trans h.found⟩

theorem Fresh.came (h : Fresh lane start network t) :
    Since lane start t ∧ Came service lane gated request t := by
  refine ⟨h.since, fun old hold => ?_⟩
  rw [h.found] at hold
  cases hold

variable {out : Except OperationError SettleResponse}

/-- A report to a call that found no row. -/
theorem ends_fresh (hfound : start.found lane = none) (hok : RowOk service Asked t.final row)
    (hid : row.id = service.authorizationID request)
    (hdigest : row.requestDigest = service.digest request)
    (h : Reconciled service lane start row request out u) :
    Settled service lane start request out u := by
  obtain ⟨hsince, -, hreported⟩ := h
  cases out with
  | error err => exact settled_error hsince err
  | ok response =>
    refine ⟨hsince, ends_reported hok hid hdigest (fun old hold => ?_) (hreported response rfl)⟩
    rw [hsince.found, hfound] at hold
    cases hold

/-- **After the scheme**: what is stored decides. -/
theorem conclude_meets (hasked : Asked request) (hfound : start.found lane = none)
    (hs : Underway lane start (service.authorizationID request) (service.digest request) s) :
    (service.conclude config request).Sat (judged service Asked lane)
      (Settled service lane start request) s := by
  refine sat_bind.mpr (meets_get Underway.stable hs (fun t ht => settled_error ht.since _)
    fun t row hinv ht hrow => ?_)
  obtain ⟨row', hrow', hactive, hdigest⟩ := ht.row
  rw [hrow] at hrow'
  cases hrow'
  have hid : row.id = service.authorizationID request := Table.key_of_lookup hrow
  have hok := hinv.rows _ row hrow
  have hreading : Reconciling service Asked lane start row t := .read ht.since hinv hrow ht.gate
  simp only [Prog.after]
  cases hsigned : row.signed with
  | none =>
    have hhash : row.transactionHash = none := by rw [Settlement.transactionHash, hsigned]; rfl
    have hverdict : Verdict service Asked t.final row .failed (settlementRejected request) :=
      ⟨rfl, .inl hsigned⟩
    rw [hhash, ← hid]
    have haddressed : (settlementRejected request).Addressed row.id.network :=
      ⟨rfl, by rw [hid]; rfl⟩
    exact (finish_meets (hok.response_of_active hactive) haddressed hreading hverdict).mono
      fun out u => ends_fresh hfound hok hid hdigest
  | some signed =>
    have hhash : row.transactionHash = some signed.transactionHash := by
      rw [Settlement.transactionHash, hsigned]; rfl
    rw [hhash]
    refine (reconcile_meets ?_ hasked hdigest.symm hreading).mono fun out u =>
      ends_fresh hfound hok hid hdigest
    rintro _ ⟨⟩
    exact hid.symm

/-- No settlement of the chain is under way. -/
def Idle (network : Network) (t : System) : Prop :=
  ∀ id row, t.rows.lookup id = some row → row.active = true → id.network ≠ network

theorem stable_idle : Stable lane fun t => Fresh lane start network t ∧ Idle network t := by
  rintro s t ⟨hfresh, hidle⟩ hrely
  refine ⟨Fresh.stable s t hfresh hrely, fun id row hrow hactive hnet => ?_⟩
  subst hnet
  exact hidle id row ((hrely.active id row hfresh.gate hactive).mp hrow) hactive rfl

/-- A network without pending rows is idle. -/
theorem idle_of_pendingCount (hinv : Inv service Asked t)
    (h : pendingCount t.rows network = 0) : Idle network t := by
  intro id row hrow hactive hnet
  have hnone := length_eq_zero_iff.mp h
  have hmem : row ∈ t.rows.rows.filter fun row => decide (row.network = network)
      && row.active := by
    refine mem_filter.mpr ⟨Table.mem_of_lookup hrow, ?_⟩
    have hok := (hinv.rows id row hrow).network
    have hid : row.id = id := Table.key_of_lookup hrow
    simp [hok, hid, hnet, hactive]
  rw [hnone] at hmem
  cases hmem

theorem reserved_of_apply {rows rows' : Journal} {params : ReserveParams}
    (h : Statement.apply rows (.reserve params) = some (1, rows')) :
    rows'.lookup params.id = some params.row := by
  simp only [Statement.apply, insertRow, Option.some.injEq] at h
  cases hinsert : rows.insert? params.row with
  | none =>
    rw [hinsert] at h
    cases h
  | some inserted =>
    rw [hinsert] at h
    cases h
    exact (writes_insert hinsert).2.lookup_self

/-- A verified payment on an idle network ends rightly. -/
theorem settleVerified_meets (hasked : Asked request)
    (hs : Fresh lane start request.network s ∧ Idle request.network s) :
    (service.settleVerified config request).Sat (judged service Asked lane)
      (Settled service lane start request) s := by
  refine sat_bind.mpr (meets_write stable_idle hs
    (fun t _ ht => lawful_reserve (reservation_of hasked) ht.1.gate ht.2)
    (fun t u ht hran => settled_error (ht.1.since.trans hran.since) _)
    fun t u count hinv ht hran happly => ?_)
  have hu := ht.1.later hran.since
  show Sat _ _ (if count ≠ 1 then _ else _) u
  by_cases hcount : count ≠ 1
  · rw [if_pos hcount]
    exact observe_meets hu.came
  · rw [if_neg hcount]
    rw [not_not] at hcount
    subst hcount
    have hunderway : Underway lane start (service.authorizationID request)
        (service.digest request) u :=
      ⟨hu.since, hu.gate, _, reserved_of_apply happly, rfl, rfl⟩
    refine sat_bind.mpr ((keeps_handle (adapter_keeps config) _ u hunderway).mono ?_)
    rintro (err | _) v hv
    · exact settled_error hv.since err
    · refine conclude_meets hasked ?_ hv
      rw [← hu.since.found]
      exact hu.found

/-- A failed verification ends a request rightly. -/
theorem ends_verificationFailed (hfound : t.found lane = none) :
    Ends service lane request (.ok (verificationFailed request)) t where
  keeps old hold := by
    rw [show (⟨request, t.found lane, t.gated lane, .ok (verificationFailed request)⟩ :
      Answered).found = t.found lane from rfl, hfound] at hold
    cases hold
  failed response heq hfailure := by
    cases heq
    exact absurd rfl hfailure.2.2
  succeeded response heq hsuccess := by
    cases heq
    cases hsuccess

/-- A fresh payment ends rightly. -/
theorem settleFresh_meets (hasked : Asked request) (hs : Fresh lane start request.network s) :
    (service.settleFresh config request).Sat (judged service Asked lane)
      (Settled service lane start request) s := by
  refine meets_read rfl Fresh.stable hs fun t answer hinv ht hserves => ?_
  rcases hserves with ⟨-, rfl | rfl⟩
  · exact settled_error ht.since _
  · show Sat _ _ (if pendingCount t.rows request.network ≠ 0 then _ else _) t
    by_cases hpending : pendingCount t.rows request.network ≠ 0
    · rw [if_pos hpending]
      exact rejectUnsubmitted_meets hasked _ ht.came
    · rw [if_neg hpending]
      have hidle := idle_of_pendingCount hinv (not_not.mp hpending)
      refine sat_bind.mpr ((keeps_handle (adapter_reads stable_idle config) _ t
        ⟨ht, hidle⟩).mono ?_)
      rintro (err | _ | _ | _) u hu
      · exact settled_error hu.1.since err
      · exact ⟨hu.1.since, ends_verificationFailed hu.1.found⟩
      · exact ⟨hu.1.since, ends_verificationFailed hu.1.found⟩
      · exact settleVerified_meets hasked hu

/-- A payment under the gate ends rightly. -/
theorem settleGated_meets (hasked : Asked request) (hgate : s.gate request.network = some lane)
    (hcame : Came service lane true request s) :
    (service.settleGated config request).Sat (judged service Asked lane)
      (Settled service lane s request) s := by
  refine meets_read rfl (stable_and stable_since Came.stable) ⟨.refl lane s, hcame⟩
    fun t answer hinv ht hserves => ?_
  have hgate' : t.gate request.network = some lane := ht.1.gate _ hgate
  rcases hserves with ⟨-, rfl | rfl⟩
  · exact settled_error ht.1 _
  · cases hrow : t.rows.lookup (service.authorizationID request) with
    | none =>
      refine settleFresh_meets hasked ⟨ht.1, hgate', ?_⟩
      cases hfound : t.found lane with
      | none => rfl
      | some old =>
        obtain ⟨-, row, hlookup, -⟩ := ht.2 old hfound
        rw [hrow] at hlookup
        cases hlookup
    | some row =>
      have hid : row.id = service.authorizationID request := Table.key_of_lookup hrow
      have hok := hinv.rows _ row hrow
      refine sat_check (fun _ hcheck => ?_) fun _ => settled_error ht.1 _
      have hdigest := not_not.mp (failIf_eq_ok.mp hcheck)
      have hreading : Reconciling service Asked lane t row t :=
        .read (.refl lane t) hinv hrow hgate'
      refine (reconcile_meets ?_ hasked hdigest.symm hreading).mono ?_
      · rintro _ ⟨⟩
      · rintro (err | response) u ⟨hsince, -, hreported⟩
        · exact settled_error (ht.1.trans hsince) err
        · refine ⟨ht.1.trans hsince, ends_reported hok hid hdigest (fun old hold => ?_)
            (hreported response rfl)⟩
          obtain ⟨hgated, row', hrow', hcontinues⟩ := ht.2 old (hsince.found.symm.trans hold)
          rw [hrow] at hrow'
          cases hrow'
          exact ⟨hsince.gated.trans hgated, hcontinues⟩

theorem releaseGate_meets {ε : Type} {kept : System → Prop}
    {post : Except ε Unit → System → Prop} (hstable : Stable lane kept) (hs : kept s)
    (hgate : ∀ t, kept t → t.gate network = some lane)
    (hpost : ∀ t gate, kept t → post (.ok ()) { t with gate := gate }) :
    (releaseGate network : Facilitate ε Unit).Sat (judged service Asked lane) post s := by
  refine meets_ask hstable hs (fun t _ ht => hgate t ht) fun t answer u _ ht hserves => ?_
  cases hserves
  exact hpost t _ ht

theorem Ends.stable : Stable lane (Ends service lane request out) := by
  intro s t h hrely
  rw [Ends, hrely.found, hrely.gated]
  exact AnswerOk.move h hrely.later.rows

/-- A payment ends rightly. -/
theorem executePayment_meets (hasked : Asked request) (hcame : Came service lane false request s) :
    (service.executePayment config request).Sat (judged service Asked lane)
      (Ends service lane request) s := by
  refine meets_read rfl Came.stable hcame fun t isHealthy _ ht _ => ?_
  refine sat_check (fun _ _ => ?_) fun err => answerOk_error _ _ _ err
  refine meets_read rfl Came.stable ht fun u active _ hu _ => ?_
  refine sat_check (fun _ _ => ?_) fun err => answerOk_error _ _ _ err
  refine meets_ask Came.stable hu (fun _ _ _ => trivial) fun v free w _ hv hserves => ?_
  rcases hserves with ⟨rfl, -, rfl⟩ | ⟨rfl, -, rfl⟩
  · -- the gate is free, and given back at the end
    have hw : Came service lane true request { v with
        gate := update v.gate request.network (some lane)
        gated := update v.gated lane true } := fun old hold => ⟨update_self .., (hv old hold).2⟩
    refine sat_always ((settleGated_meets hasked (update_self ..) hw).mono ?_)
    rintro out x ⟨hsince, hends⟩
    have hgate : x.gate request.network = some lane := hsince.gate _ (update_self ..)
    refine releaseGate_meets (stable_and (stable_gate request.network) Ends.stable)
      ⟨hgate, hends⟩
      (fun y hy => hy.1) fun y gate hy => ⟨rfl, hy.2⟩
  · exact (rejectUnsubmitted_meets hasked _ ⟨.refl lane w, hv⟩).mono fun out x hx => hx.2

/-- A settle call answers rightly. -/
theorem settleCall_meets (hasked : Asked request) :
    (service.settleCall config request).Sat (judged service Asked lane) (fun _ _ => True) s := by
  have htrue : Stable lane fun _ => True := fun _ _ _ _ => trivial
  refine meets_ask htrue trivial (fun _ _ _ => trivial) fun t _ u _ _ hserves => ?_
  have hcame : Came service lane false request u := by
    cases hserves
    intro old hold
    have hlookup : t.rows.lookup (service.authorizationID request) = some old :=
      (update_self lane _ t.found).symm.trans hold
    exact ⟨update_self .., old, hlookup, .refl old⟩
  show ((service.executePayment config request).attempt >>= fun result =>
    (.ask (.answer request result : Request) .done : Facilitate Empty Unit)).Sat _ _ u
  refine sat_bind.mpr (sat_attempt.mpr ((executePayment_meets hasked hcame).mono ?_))
  intro out v hv
  exact meets_ask Ends.stable hv (fun _ _ hends => hends) fun _ _ _ _ _ _ => trivial

end Calls

/-! ## Recovery -/

section Recovery

variable {service : Service} {Asked : PaymentRequest → Prop} {lane : Nat} {s t : System}
  {config : ChainConfig}

/-- At most one settlement is underway on a network. -/
theorem pendingRows_cases (hinv : Inv service Asked t) (network : Network) :
    pendingRows t.rows network = [] ∨ ∃ row, pendingRows t.rows network = [row]
      ∧ t.rows.lookup row.id = some row ∧ row.id.network = network := by
  have hmem : ∀ row ∈ pendingRows t.rows network, t.rows.lookup row.id = some row
      ∧ row.active = true ∧ row.id.network = network := by
    intro row hrow
    obtain ⟨hrow, hcond⟩ := mem_filter.mp (mem_of_mem_take hrow)
    rw [Bool.and_eq_true, decide_eq_true_eq] at hcond
    have hlookup := t.rows.lookup_key hrow
    exact ⟨hlookup, hcond.2, (hinv.rows _ row hlookup).network.symm.trans hcond.1⟩
  have hnodup : (pendingRows t.rows network).Nodup :=
    ((t.rows.nodup.of_map).filter _).sublist (take_sublist _ _)
  match hrows : pendingRows t.rows network with
  | [] => exact .inl rfl
  | [row] =>
    rw [hrows] at hmem
    obtain ⟨hlookup, -, hnet⟩ := hmem row mem_cons_self
    exact .inr ⟨row, rfl, hlookup, hnet⟩
  | row :: other :: rest =>
    rw [hrows] at hmem hnodup
    obtain ⟨hlookup, hactive, hnet⟩ := hmem row mem_cons_self
    obtain ⟨hlookup', hactive', hnet'⟩ := hmem other (mem_cons_of_mem _ mem_cons_self)
    have hid := hinv.single _ _ row other hlookup hlookup' hactive hactive' (hnet.trans hnet'.symm)
    rw [hid, hlookup'] at hlookup
    cases hlookup
    exact absurd mem_cons_self (nodup_cons.mp hnodup).1

/-- Reconciling what is pending keeps the gate. -/
theorem reconcilePending_meets (hgate : s.gate config.network = some lane) :
    (reconcilePending config).Sat (judged service Asked lane)
      (fun _ t => t.gate config.network = some lane) s := by
  refine meets_read rfl (stable_gate config.network) hgate fun t answer hinv ht hserves => ?_
  rcases hserves with ⟨-, rfl | rfl⟩
  · exact ht
  · show (reconcileAll config (pendingRows t.rows config.network)).Sat _ _ t
    rcases pendingRows_cases hinv config.network with hrows | ⟨row, hrows, hlookup, hnet⟩
    · rw [hrows]
      exact ht
    · rw [hrows]
      have hok := hinv.rows _ row hlookup
      have hreading : Reconciling service Asked lane t row t :=
        .read (.refl lane t) hinv hlookup (hnet ▸ ht)
      refine sat_bind.mpr (sat_attempt.mpr ((reconcile_meets ?_ hok.asked
        hok.requestDigest.symm hreading).mono ?_))
      · rintro _ ⟨⟩
      · rintro out u ⟨-, hgate', -⟩
        exact hnet ▸ hgate'

/-- The monitor is lawful throughout. -/
theorem monitor_meets :
    (service.monitor config).Sat (judged service Asked lane) (fun _ _ => True) s := by
  have htrue : Stable lane fun _ => True := fun _ _ _ _ => trivial
  refine sat_bind.mpr (((rpc_keeps htrue _ _).attempt s trivial).mono ?_)
  rintro (err | chainID) t -
  · trivial
  · show Sat _ _ (if chainID.toOption ≠ none ∧ _ then _ else _) t
    split_ifs
    · refine sat_bind.mpr ((guard_keeps htrue t trivial).mono ?_)
      rintro (err | _ | _) u -
      · trivial
      · trivial
      · refine meets_ask htrue trivial (fun _ _ _ => trivial) fun v free w _ _ hserves => ?_
        rcases hserves with ⟨rfl, -, rfl⟩ | ⟨rfl, -, rfl⟩
        · refine sat_always ((reconcilePending_meets (update_self ..)).mono ?_)
          intro out x hx
          exact releaseGate_meets (stable_gate config.network) hx (fun _ hy => hy)
            fun _ _ _ => ⟨rfl, trivial⟩
        · trivial
    · trivial

/-- The lane has the gate, and the transaction is stored. -/
theorem confirms_signed (id : AuthorizationID) (signed : SignedTransaction) :
    Confirms lane (some id) fun t => t.gate id.network = some lane ∧ Signed id signed t := by
  have hgate : Confirms lane (some id) fun t => t.gate id.network = some lane := by
    refine ⟨stable_gate id.network, ?_, ?_⟩
    · rintro _ ⟨⟩ t ht
      exact ht
    · rintro _ ⟨⟩ hash t u ht hran
      exact hran.since.gate _ ht
  exact hgate.signed signed

/-- Sending a stored transaction again is lawful. -/
theorem resend_meets {row : Settlement} {signed : SignedTransaction}
    (hs : s.gate row.id.network = some lane ∧ Signed row.id signed s) :
    (service.resend config row signed).Sat (judged service Asked lane)
      (fun _ t => t.gate row.id.network = some lane) s := by
  have hconfirms : Confirms lane (some row.id) _ := confirms_signed row.id signed
  refine sat_check (fun _ _ => ?_) fun _ => hs.1
  refine sat_check (fun _ _ => ?_) fun _ => hs.1
  refine sat_check (fun _ _ => ?_) fun _ => hs.1
  refine sat_bind.mpr ((guard_keeps hconfirms.stable s hs).mono ?_)
  rintro (err | active) t ht
  · exact ht.1
  refine sat_check (fun _ _ => ?_) fun _ => ht.1
  refine sat_bind.mpr (send_meets hconfirms.stable ht fun u sent answer hu => ?_)
  refine sat_check (fun _ _ => ?_) fun _ => hu.1
  refine sat_bind.mpr (meets_write hconfirms.stable (s := { u with sent := sent }) hu
    (fun v hinv hv => lawful_confirmBroadcast hinv hv.1 _)
    (fun v w hv hran => hran.since.gate _ hv.1) fun v w count _ hv hran _ => ?_)
  exact hran.since.gate _ hv.1

/-- A rebroadcast is lawful throughout. -/
theorem rebroadcast_meets (id : AuthorizationID) :
    (service.rebroadcast id).Sat (judged service Asked lane) (fun _ _ => True) s := by
  have htrue : Stable lane fun _ => True := fun _ _ _ _ => trivial
  refine sat_bind.mpr (meets_get htrue trivial (fun _ _ => trivial) fun t row hinv _ hrow => ?_)
  refine sat_check (fun _ _ => ?_) fun _ => trivial
  have hid : row.id = id := Table.key_of_lookup hrow
  have hnetwork : row.network = row.id.network := (hinv.rows id row hrow).network
  cases hsigned : row.signed with
  | none => trivial
  | some signed =>
    cases hchain : service.chains row.network with
    | none => trivial
    | some config =>
      have hstored : Signed row.id signed t := ⟨row, hid ▸ hrow, hsigned⟩
      have hstable : Stable lane (Signed row.id signed) := fun _ _ h hrely => h.later hrely.later
      refine meets_ask hstable hstored (fun _ _ _ => trivial) fun u free v _ hu hserves => ?_
      rcases hserves with ⟨rfl, -, rfl⟩ | ⟨rfl, rfl⟩
      · have hv : Signed row.id signed
            { u with gate := update u.gate row.network (some lane) } := hu
        refine sat_always ((resend_meets ⟨?_, hv⟩).mono fun out w hw => ?_)
        · show update u.gate row.network (some lane) row.id.network = _
          rw [hnetwork]
          exact update_self ..
        · refine releaseGate_meets (stable_gate row.id.network) hw (fun _ hx => ?_)
            fun _ _ _ => ⟨rfl, trivial⟩
          rw [hnetwork]
          exact hx
      · trivial

/-- **The facilitator** keeps its invariant. -/
theorem facilitator_rule (service : Service) (Asked : PaymentRequest → Prop) :
    LanesRule (world service Asked) Environment (Started service Asked) (Inv service Asked)
      Later where
  env _ _ hinv henv := environment_step hinv henv
  serves _ _ _ _ _ hinv hguar hserves := serves_step hinv (hguar hinv) hserves
  starts lane p s hstarts _ := by
    cases hstarts with
    | settleCall asked chain => exact settleCall_meets asked
    | monitor chain => exact monitor_meets
    | rebroadcast id =>
      refine sat_bind.mpr (sat_attempt.mpr ((rebroadcast_meets id).mono ?_))
      intro out t _
      trivial
  refl := Later.refl
  trans _ _ _ := Later.trans

end Recovery

end Facilitator
