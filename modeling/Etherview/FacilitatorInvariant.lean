import Etherview.FacilitatorService

/-! # What the journal keeps

    A row continues another one when it describes the same authorization, keeps a
    transaction once it has one, and stays as it is once it has ended.  Every statement
    moves the journal along this order.

    The lanes of the facilitator rely on one another through the gates: while a lane has the
    gate of a chain, nobody else changes the rows of the chain that are under way.  Refusals
    are made without the gate, but a refusal inserts a row that has ended. -/

namespace Facilitator

open Relational Interaction List Function

/-! ## Rows go on -/

/-- The same authorization, later. -/
structure Continues (old row : Settlement) : Prop where
  id : row.id = old.id
  requestDigest : row.requestDigest = old.requestDigest
  request : row.request = old.request
  signed : ∀ signed, old.signed = some signed → row.signed = some signed
  ended : old.active = false →
    row.state = old.state ∧ row.response = old.response ∧ row.signed = old.signed

theorem Continues.refl (row : Settlement) : Continues row row :=
  ⟨rfl, rfl, rfl, fun _ h => h, fun _ => ⟨rfl, rfl, rfl⟩⟩

theorem active_congr {row other : Settlement} (h : row.state = other.state) :
    row.active = other.active := by
  rw [Settlement.active, Settlement.active, h]

/-- Continuing twice is continuing. -/
theorem Continues.trans {old row later : Settlement} (h : Continues old row)
    (h' : Continues row later) : Continues old later where
  id := h'.id.trans h.id
  requestDigest := h'.requestDigest.trans h.requestDigest
  request := h'.request.trans h.request
  signed signed hs := h'.signed signed (h.signed signed hs)
  ended hended := by
    obtain ⟨hstate, hresponse, hsigned⟩ := h.ended hended
    obtain ⟨hstate', hresponse', hsigned'⟩ := h'.ended ((active_congr hstate).trans hended)
    exact ⟨hstate'.trans hstate, hresponse'.trans hresponse, hsigned'.trans hsigned⟩

/-- Every row goes on. -/
def JournalMove (rows rows' : Journal) : Prop :=
  ∀ id row, rows.lookup id = some row → ∃ row', rows'.lookup id = some row'
    ∧ Continues row row'

theorem JournalMove.refl (rows : Journal) : JournalMove rows rows :=
  fun _ row h => ⟨row, h, .refl row⟩

variable {rows rows' : Journal}

/-- Two moves of a journal are one. -/
theorem JournalMove.trans {rows'' : Journal} (h : JournalMove rows rows')
    (h' : JournalMove rows' rows'') : JournalMove rows rows'' := by
  intro id row hrow
  obtain ⟨row', hrow', hcontinues⟩ := h id row hrow
  obtain ⟨row'', hrow'', hcontinues'⟩ := h' id row' hrow'
  exact ⟨row'', hrow'', hcontinues.trans hcontinues'⟩

/-- Writing a row that continues the old one is a move. -/
theorem Writes.move {row : Settlement} (h : Writes rows rows' row)
    (hold : ∀ old, rows.lookup row.id = some old → Continues old row) :
    JournalMove rows rows' := by
  intro id old hfound
  rw [h id]
  by_cases hid : row.id = id
  · subst hid
    exact ⟨row, if_pos rfl, hold old hfound⟩
  · exact ⟨old, (if_neg hid).trans hfound, .refl old⟩

/-! ## What the rows say -/

section Truth

variable (service : Service) (Asked : PaymentRequest → Prop)

/-- What the state of a row says about its response and its transaction: a success was seen
    on the chain; after a failure the transaction was reverted, or there is none. -/
def Settlement.Truthful (final : Hash → Option Receipt) (row : Settlement) : Prop :=
  match row.state with
  | .reserved => row.signed = none ∧ row.response = none
  | .signed => row.signed.isSome = true ∧ row.response = none
  | .succeeded => ∃ response signed receipt request, row.response = some response
      ∧ response.success = true ∧ row.signed = some signed
      ∧ final signed.transactionHash = some receipt ∧ receipt.status = .succeeded
      ∧ Asked request ∧ service.digest request = row.requestDigest
      ∧ receipt.transfers request = true
  | .failed => (∃ response, row.response = some response ∧ response.success = false)
      ∧ (row.signed = none ∨ ∃ signed receipt, row.signed = some signed
          ∧ final signed.transactionHash = some receipt ∧ receipt.status = .reverted)

/-- A response names a payer and the network. -/
def SettleResponse.Addressed (response : SettleResponse) (network : Network) : Prop :=
  response.payer.isSome = true ∧ response.network = network

/-- A row that the facilitator may write. -/
structure RowOk (final : Hash → Option Receipt) (row : Settlement) : Prop where
  network : row.network = row.id.network
  asked : Asked row.request
  requestDigest : row.requestDigest = service.digest row.request
  hash : ∀ signed, row.signed = some signed →
    signed.transactionHash = service.hash signed.rawTransaction
  response : ∀ response, row.response = some response → response.Addressed row.id.network
  truthful : row.Truthful service Asked final

/-- More is final than before. -/
def FinalMove (final final' : Hash → Option Receipt) : Prop :=
  ∀ hash receipt, final hash = some receipt → final' hash = some receipt

variable {service Asked} {final final' : Hash → Option Receipt} {row : Settlement}

/-- A truthful row stays truthful as more receipts become final. -/
theorem Settlement.Truthful.later (h : row.Truthful service Asked final)
    (hfinal : FinalMove final final') : row.Truthful service Asked final' := by
  rw [Settlement.Truthful] at h ⊢
  cases hstate : row.state with
  | reserved | signed =>
    rw [hstate] at h
    exact h
  | succeeded =>
    rw [hstate] at h
    obtain ⟨response, signed, receipt, request, hresponse, hsuccess, hsigned, hseen, hrest⟩ := h
    exact ⟨response, signed, receipt, request, hresponse, hsuccess, hsigned,
      hfinal _ _ hseen, hrest⟩
  | failed =>
    rw [hstate] at h
    refine ⟨h.1, h.2.imp_right ?_⟩
    rintro ⟨signed, receipt, hsigned, hseen, hstatus⟩
    exact ⟨signed, receipt, hsigned, hfinal _ _ hseen, hstatus⟩

theorem RowOk.later (h : RowOk service Asked final row) (hfinal : FinalMove final final') :
    RowOk service Asked final' row :=
  { h with truthful := h.truthful.later hfinal }

section

variable (h : RowOk service Asked final row)
include h

/-- An active row has no response. -/
theorem RowOk.response_of_active (hactive : row.active = true) : row.response = none := by
  have htruthful := h.truthful
  rw [Settlement.Truthful] at htruthful
  cases hstate : row.state with
  | reserved | signed =>
    rw [hstate] at htruthful
    exact htruthful.2
  | succeeded | failed => simp [Settlement.active, hstate] at hactive

/-- A row with a transaction is not merely reserved. -/
theorem RowOk.state_of_signed {signed : SignedTransaction}
    (hsigned : row.signed = some signed) : row.state ≠ .reserved := by
  intro hstate
  have htruthful := h.truthful
  rw [Settlement.Truthful, hstate] at htruthful
  rw [htruthful.1] at hsigned
  cases hsigned

/-- A row with a response has ended as the response says. -/
theorem RowOk.ended_of_response {response : SettleResponse}
    (hresponse : row.response = some response) :
    row.state = if response.success then .succeeded else .failed := by
  have htruthful := h.truthful
  rw [Settlement.Truthful] at htruthful
  cases hstate : row.state with
  | reserved | signed =>
    rw [hstate] at htruthful
    rw [htruthful.2] at hresponse
    cases hresponse
  | succeeded =>
    rw [hstate] at htruthful
    obtain ⟨stored, _, _, _, hstored, hsuccess, -⟩ := htruthful
    rw [hresponse] at hstored
    cases hstored
    rw [if_pos hsuccess]
  | failed =>
    rw [hstate] at htruthful
    obtain ⟨⟨stored, hstored, hsuccess⟩, -⟩ := htruthful
    rw [hresponse] at hstored
    cases hstored
    rw [hsuccess]
    rfl

/-- A row that has ended has a response. -/
theorem RowOk.response_of_ended (hended : row.active = false) :
    ∃ response, row.response = some response := by
  have htruthful := h.truthful
  rw [Settlement.Truthful] at htruthful
  cases hstate : row.state with
  | reserved | signed => simp [Settlement.active, hstate] at hended
  | succeeded =>
    rw [hstate] at htruthful
    obtain ⟨response, _, _, _, hresponse, -⟩ := htruthful
    exact ⟨response, hresponse⟩
  | failed =>
    rw [hstate] at htruthful
    obtain ⟨⟨response, hresponse, -⟩, -⟩ := htruthful
    exact ⟨response, hresponse⟩

end

end Truth

/-! ## The invariant -/

/-- A response that says for good that the authorization is not settled, and that is stored. -/
def SettleResponse.FinalFailure (response : SettleResponse) : Prop :=
  response.success = false ∧ response.errorReason ≠ "settlement_pending"
    ∧ response.errorReason ≠ "verification_failed"

instance (response : SettleResponse) : Decidable response.FinalFailure :=
  inferInstanceAs (Decidable (_ ∧ _ ∧ _))

/-- The text of a response has an amount only if the response has one. -/
def Service.OmitsAmounts (service : Service) : Prop := service.omitted.amount = true

/-- What a call gets of a stored response.  With the gate it is the response; without, the
    amount of the request stands where the text of the response has none. -/
def Service.replay (service : Service) (gated : Bool) (stored : SettleResponse)
    (request : PaymentRequest) : SettleResponse :=
  if gated then stored
  else
    { stored with
      amount := decoded service.omitted.amount none stored.amount (some request.amount) }

/-- **When a stored response is replayed as it is.** -/
theorem Service.replay_eq_iff (service : Service) (gated : Bool) (stored : SettleResponse)
    (request : PaymentRequest) : service.replay gated stored request = stored ↔
      gated = true ∨ (service.OmitsAmounts → stored.amount ≠ none) := by
  unfold Service.replay Service.OmitsAmounts decoded
  cases gated with
  | true => exact iff_of_true rfl (.inl rfl)
  | false =>
    simp only [Bool.false_eq_true, if_false, false_or]
    constructor
    · intro h homits hnone
      have hamount := congrArg SettleResponse.amount h
      simp only [homits, hnone, and_self, if_true, reduceCtorEq] at hamount
    · intro h
      rw [if_neg fun hboth => h hboth.1 hboth.2]

/-- What an answer owes to a row that had ended when the call came. -/
def Answered.Keeps (service : Service) (answered : Answered) : Prop :=
  ∀ row, answered.found = some row → row.active = false → ∀ response,
    answered.result = .ok response →
    row.requestDigest = service.digest answered.request
      ∧ ∃ stored, row.response = some stored
        ∧ response = service.replay answered.gated stored answered.request

/-- An answer and the journal. -/
structure AnswerOk (service : Service) (rows : Journal) (answered : Answered) : Prop where
  keeps : answered.Keeps service
  failed : ∀ response, answered.result = .ok response → response.FinalFailure →
    ∃ row, rows.lookup (service.authorizationID answered.request) = some row
      ∧ row.state = .failed
  succeeded : ∀ response, answered.result = .ok response → response.success = true →
    ∃ row, rows.lookup (service.authorizationID answered.request) = some row
      ∧ row.state = .succeeded

/-- What was sent was stored for its authorization, and still is. -/
def Stored (rows : Journal) (sending : Sending) : Prop :=
  ∃ row signed, sending.found = some row ∧ row.signed = some signed
    ∧ signed.rawTransaction = sending.rawTransaction ∧ row.state ≠ .reserved
    ∧ ∃ row', rows.lookup sending.id = some row' ∧ Continues row row'

/-- The invariant of the system. -/
structure Inv (service : Service) (Asked : PaymentRequest → Prop) (s : System) : Prop where
  rows : ∀ id row, s.rows.lookup id = some row → RowOk service Asked s.final row
  single : ∀ id id' row row', s.rows.lookup id = some row → s.rows.lookup id' = some row' →
    row.active = true → row'.active = true → id.network = id'.network → id = id'
  sent : ∀ sending ∈ s.sent, Stored s.rows sending
  answers : ∀ answered ∈ s.answers, AnswerOk service s.rows answered

section Moves

variable {service : Service} {Asked : PaymentRequest → Prop} {rows rows' : Journal}

/-- A settlement that has ended stays as it is. -/
theorem JournalMove.ended (h : JournalMove rows rows') {id : AuthorizationID} {state : State}
    (hstate : state = .succeeded ∨ state = .failed)
    (hrow : ∃ row, rows.lookup id = some row ∧ row.state = state) :
    ∃ row, rows'.lookup id = some row ∧ row.state = state := by
  obtain ⟨row, hrow, rfl⟩ := hrow
  obtain ⟨row', hrow', hcontinues⟩ := h id row hrow
  refine ⟨row', hrow', (hcontinues.ended ?_).1⟩
  rw [Settlement.active]
  rcases hstate with hstate | hstate <;> rw [hstate]

theorem AnswerOk.move {answered : Answered} (h : AnswerOk service rows answered)
    (hmove : JournalMove rows rows') : AnswerOk service rows' answered where
  keeps := h.keeps
  failed response hresult hfailure := hmove.ended (.inr rfl) (h.failed response hresult hfailure)
  succeeded response hresult hsuccess :=
    hmove.ended (.inl rfl) (h.succeeded response hresult hsuccess)

/-- What was stored before a sending stays stored. -/
theorem Stored.move {sending : Sending} (h : Stored rows sending)
    (hmove : JournalMove rows rows') : Stored rows' sending := by
  obtain ⟨row, signed, hfound, hsigned, hraw, hstate, row', hrow', hcontinues⟩ := h
  obtain ⟨row'', hrow'', hcontinues'⟩ := hmove _ _ hrow'
  exact ⟨row, signed, hfound, hsigned, hraw, hstate, row'', hrow'',
    hcontinues.trans hcontinues'⟩

theorem answerOk_error (request : PaymentRequest) (found : Option Settlement) (gated : Bool)
    (err : OperationError) : AnswerOk service rows ⟨request, found, gated, .error err⟩ where
  keeps := fun _ _ _ _ h => by cases h
  failed := fun _ h => by cases h
  succeeded := fun _ h => by cases h

end Moves

/-! ## What the lanes rely on -/

/-- The journal and the chain only go on. -/
structure Later (s t : System) : Prop where
  rows : JournalMove s.rows t.rows
  final : FinalMove s.final t.final

variable {s t : System}

/-- With the same rows and receipts nothing is lost. -/
theorem Later.same (hrows : t.rows = s.rows) (hfinal : t.final = s.final) : Later s t := by
  refine ⟨?_, fun hash receipt h => ?_⟩
  · rw [hrows]
    exact .refl _
  · rw [hfinal]
    exact h

theorem Later.refl (s : System) : Later s s := .same rfl rfl

theorem Later.trans {u : System} (h : Later s t) (h' : Later t u) : Later s u :=
  ⟨h.rows.trans h'.rows, fun hash receipt hfinal => h'.final _ _ (h.final hash receipt hfinal)⟩

/-- What holds along the steps of the others: the gates of the lane are its own, and so are
    the rows under way of their chains. -/
structure Rely (lane : Nat) (s t : System) : Prop where
  later : Later s t
  gate : ∀ network, s.gate network = some lane → t.gate network = some lane
  active : ∀ id row, s.gate id.network = some lane → row.active = true →
    (t.rows.lookup id = some row ↔ s.rows.lookup id = some row)
  found : t.found lane = s.found lane
  gated : t.gated lane = s.gated lane

theorem Rely.refl (lane : Nat) (s : System) : Rely lane s s :=
  ⟨.refl s, fun _ h => h, fun _ _ _ _ => Iff.rfl, rfl, rfl⟩

/-- What others do twice, they may do. -/
theorem Rely.trans {lane : Nat} {u : System} (h : Rely lane s t) (h' : Rely lane t u) :
    Rely lane s u where
  later := h.later.trans h'.later
  gate network hgate := h'.gate network (h.gate network hgate)
  active id row hgate hactive :=
    (h'.active id row (h.gate _ hgate) hactive).trans (h.active id row hgate hactive)
  found := h'.found.trans h.found
  gated := h'.gated.trans h.gated

section Steps

variable {service : Service} {Asked : PaymentRequest → Prop} {lane : Nat} {s : System}

/-- A row that a lane may write. -/
structure Legal (service : Service) (Asked : PaymentRequest → Prop) (lane : Nat) (s : System)
    (row : Settlement) : Prop where
  ok : RowOk service Asked s.final row
  continues : ∀ old, s.rows.lookup row.id = some old → Continues old row
  single : row.active = true → ∀ id other, s.rows.lookup id = some other →
    other.active = true →
    id.network = row.id.network → id = row.id
  gate : s.gate row.id.network = some lane ∨ (s.rows.lookup row.id = none ∧ row.active = false)

/-- What a lane owes before a statement: whatever it writes is legal. -/
def Lawful (service : Service) (Asked : PaymentRequest → Prop) (lane : Nat) (s : System)
    (statement : Statement) : Prop :=
  ∀ rows, Effect s.rows rows statement →
    rows = s.rows ∨ ∃ row, Writes s.rows rows row ∧ Legal service Asked lane s row

variable {row : Settlement} {rows : Journal}

/-- A legal row keeps the invariant. -/
theorem Legal.inv (h : Legal service Asked lane s row)
    (hinv : Inv service Asked s) (hwrites : Writes s.rows rows row) :
    Inv service Asked { s with rows := rows } := by
  have hmove := hwrites.move h.continues
  refine ⟨fun id other hother => ?_,
    fun id id' other other' hother hother' hactive hactive' hnet =>
    ?_, fun sending hmem => (hinv.sent sending hmem).move hmove,
    fun answered hmem => (hinv.answers answered hmem).move hmove⟩
  · rw [hwrites id] at hother
    split_ifs at hother with hid
    · cases hother
      exact h.ok
    · exact hinv.rows id other hother
  · -- the new row is the only one under way of its chain
    rw [hwrites id] at hother
    rw [hwrites id'] at hother'
    split_ifs at hother hother' with hid hid' hid'
    · exact hid.symm.trans hid'
    · cases hother
      subst hid
      exact (h.single hactive id' other' hother' hactive' hnet.symm).symm
    · cases hother'
      subst hid'
      exact h.single hactive' id other hother hactive hnet
    · exact hinv.single id id' other other' hother hother' hactive hactive' hnet

/-- A legal row is what other lanes rely on. -/
theorem Legal.rely (h : Legal service Asked lane s row)
    (hwrites : Writes s.rows rows row) {other : Nat} (hother : other ≠ lane) :
    Rely other s { s with rows := rows } where
  later := ⟨hwrites.move h.continues, fun _ _ hfinal => hfinal⟩
  gate _ hgate := hgate
  active id active hgate hactive := by
    show rows.lookup id = some active ↔ _
    rw [hwrites id]
    split_ifs with hid
    · subst hid
      rcases h.gate with hmine | ⟨hfresh, hended⟩
      · rw [hmine] at hgate
        exact absurd (Option.some.inj hgate).symm hother
      · -- a refusal has ended from the start
        rw [hfresh]
        refine ⟨fun heq => ?_, fun heq => by cases heq⟩
        cases heq
        rw [hended] at hactive
        cases hactive
    · exact Iff.rfl
  found := rfl
  gated := rfl

/-- **A lawful statement** keeps the invariant and what the others rely on. -/
theorem Lawful.step {statement : Statement}
    (h : Lawful service Asked lane s statement) (hinv : Inv service Asked s)
    (heffect : Effect s.rows rows statement) :
    Inv service Asked { s with rows := rows } ∧ Later s { s with rows := rows }
      ∧ ∀ other, other ≠ lane → Rely other s { s with rows := rows } := by
  rcases h rows heffect with rfl | ⟨row, hwrites, hlegal⟩
  · exact ⟨hinv, .refl s, fun other _ => .refl other s⟩
  · exact ⟨hlegal.inv hinv hwrites,
      ⟨hwrites.move hlegal.continues, fun _ _ hfinal => hfinal⟩,
      fun other hother => hlegal.rely hwrites hother⟩

/-! ### The statements -/

variable {id : AuthorizationID}

section

variable (hinv : Inv service Asked s) (hgate : s.gate id.network = some lane)
include hinv hgate

/-- A row of one authorization, changed under the gate without going under way. -/
theorem Legal.changed {old row : Settlement} (hold : s.rows.lookup id = some old)
    (hok : RowOk service Asked s.final row) (hcontinues : Continues old row)
    (hactive : row.active = true → old.active = true) : Legal service Asked lane s row := by
  have hid : row.id = id := hcontinues.id.trans (Table.key_of_lookup hold)
  refine ⟨hok, fun other hother => ?_, fun hrow id' other hother hother' hnet => ?_, .inl ?_⟩
  · rw [hid, hold] at hother
    cases hother
    exact hcontinues
  · rw [hid] at hnet ⊢
    exact hinv.single id' id other old hother hold hother' (hactive hrow) hnet
  · rw [hid]
    exact hgate

/-- Confirming a broadcast is lawful. -/
theorem lawful_confirmBroadcast (hash : Hash) :
    Lawful service Asked lane s (.confirmBroadcast id hash) := by
  intro rows heffect
  cases heffect with
  | none same => exact .inl same
  | confirmed old found writes =>
    have hok := hinv.rows id old found
    refine .inr ⟨_, writes, .changed hinv hgate found ?_ ?_ fun hactive => hactive⟩
    · exact ⟨hok.network, hok.asked, hok.requestDigest, hok.hash, hok.response, hok.truthful⟩
    · exact ⟨rfl, rfl, rfl, fun _ hsigned => hsigned, fun _ => ⟨rfl, rfl, rfl⟩⟩

/-- Saving a transaction under its own hash is lawful. -/
theorem lawful_saveSigned {signed : SignedTransaction}
    (hhash : signed.transactionHash = service.hash signed.rawTransaction) :
    Lawful service Asked lane s (.saveSigned id signed) := by
  intro rows heffect
  cases heffect with
  | none same => exact .inl same
  | signed old found state unsigned writes =>
    have hok := hinv.rows id old found
    have hactive : old.active = true := by rw [Settlement.active, state]
    refine .inr ⟨_, writes, .changed hinv hgate found ?_ ?_ fun _ => hactive⟩
    · refine ⟨hok.network, hok.asked, hok.requestDigest, fun other hother => ?_,
        hok.response, ?_⟩
      · cases hother
        exact hhash
      · exact ⟨rfl, hok.response_of_active hactive⟩
    · refine ⟨rfl, rfl, rfl, fun other hother => ?_, fun hended => ?_⟩
      · rw [unsigned] at hother
        cases hother
      · rw [hactive] at hended
        cases hended

/-- Ending a settlement with a truthful response is lawful. -/
theorem lawful_finish {ending : Ending} {response : SettleResponse}
    (haddressed : response.Addressed id.network)
    (htruthful : ∀ old, s.rows.lookup id = some old → old.active = true →
      Settlement.Truthful service Asked s.final
        { old with state := ending.state, response := some response }) :
    Lawful service Asked lane s (.finish id ending response) := by
  intro rows heffect
  cases heffect with
  | none same => exact .inl same
  | finished old found active check writes =>
    have hok := hinv.rows id old found
    refine .inr ⟨_, writes, .changed hinv hgate found ?_ ?_ fun _ => active⟩
    · refine ⟨hok.network, hok.asked, hok.requestDigest, hok.hash, fun other hother => ?_,
        htruthful old found active⟩
      cases hother
      show response.Addressed old.id.network
      rw [show old.id = id from Table.key_of_lookup found]
      exact haddressed
    · refine ⟨rfl, rfl, rfl, fun _ hsigned => hsigned, fun hended => ?_⟩
      rw [active] at hended
      cases hended

end

/-- What both insertions store. -/
structure ReserveParams.Of (service : Service) (Asked : PaymentRequest → Prop)
    (params : ReserveParams) : Prop where
  network : params.network = params.id.network
  asked : Asked params.request
  requestDigest : params.requestDigest = service.digest params.request

variable {params : ReserveParams}

/-- Reserving is lawful for the holder of the gate of an idle network. -/
theorem lawful_reserve (hparams : params.Of service Asked)
    (hgate : s.gate params.id.network = some lane)
    (hidle : ∀ id row, s.rows.lookup id = some row → row.active = true →
      id.network ≠ params.id.network) :
    Lawful service Asked lane s (.reserve params) := by
  intro rows heffect
  cases heffect with
  | none same => exact .inl same
  | reserved fresh writes =>
    refine .inr ⟨_, writes, ⟨?_, ?_, ?_, .inl hgate⟩⟩
    · refine ⟨hparams.network, hparams.asked, hparams.requestDigest, ?_, ?_, ⟨rfl, rfl⟩⟩
      · rintro signed ⟨⟩
      · rintro response ⟨⟩
    · intro old hold
      rw [show params.row.id = params.id from rfl, fresh] at hold
      cases hold
    · intro _ id other hother hactive hnet
      exact absurd hnet (hidle id other hother hactive)

/-- Refusing a payment is lawful. -/
theorem lawful_rejectUnsubmitted {response : SettleResponse}
    (hparams : params.Of service Asked) (hsuccess : response.success = false)
    (haddressed : response.Addressed params.id.network) :
    Lawful service Asked lane s (.rejectUnsubmitted params response) := by
  intro rows heffect
  cases heffect with
  | none same => exact .inl same
  | refused fresh writes =>
    refine .inr ⟨_, writes, ⟨?_, ?_, ?_, .inr ⟨fresh, rfl⟩⟩⟩
    · refine ⟨hparams.network, hparams.asked, hparams.requestDigest, ?_, ?_,
        ⟨⟨response, rfl, hsuccess⟩, .inl rfl⟩⟩
      · rintro signed ⟨⟩
      · rintro other ⟨⟩
        exact haddressed
    · intro old hold
      rw [show (params.refused response).id = params.id from rfl, fresh] at hold
      cases hold
    · intro hactive
      cases hactive

end Steps

/-! ## The world of a lane -/

/-- What a lane owes before a request. -/
def Owes (service : Service) (Asked : PaymentRequest → Prop) (lane : Nat) :
    facilitatorInterface.Request → System → Prop
  | .write statement, s => Lawful service Asked lane s statement
  | .send id rawTransaction, s => ∃ row signed, s.rows.lookup id = some row
      ∧ row.signed = some signed ∧ signed.rawTransaction = rawTransaction
  | .releaseGate network, s => s.gate network = some lane
  | .answer request result, s =>
    AnswerOk service s.rows ⟨request, s.found lane, s.gated lane, result⟩
  | _, _ => True

/-- The world of a lane. -/
def world (service : Service) (Asked : PaymentRequest → Prop) (lane : Nat) :
    World facilitatorInterface System where
  serves := Serves lane
  rely := Rely lane
  guar request s := Inv service Asked s → Owes service Asked lane request s
  rely_refl := Rely.refl lane
  rely_trans := Rely.trans

section Serving

variable {service : Service} {Asked : PaymentRequest → Prop} {lane : Nat} {s t : System}

/-- What changes the gates only is invisible to the invariant. -/
theorem Inv.gates (h : Inv service Asked s) (gate : Network → Option Nat) (gated : Nat → Bool) :
    Inv service Asked { s with gate := gate, gated := gated } :=
  ⟨h.rows, h.single, h.sent, h.answers⟩

variable {network : Network} {holder : Option Nat} {gated : Nat → Bool}

/-- The other lanes do not see a change at a gate that was not theirs. -/
theorem Rely.gates {other : Nat} (h : s.gate network ≠ some other)
    (hgated : gated other = s.gated other) :
    Rely other s { s with gate := update s.gate network holder, gated := gated } where
  later := .same rfl rfl
  gate net hnet := by
    show update s.gate network holder net = _
    rw [update_of_ne ?_]
    · exact hnet
    · rintro rfl
      exact h hnet
  active _ _ _ _ := Iff.rfl
  found := rfl
  gated := hgated

/-- The step of one request. -/
def StepOk (service : Service) (Asked : PaymentRequest → Prop) (lane : Nat) (s t : System) :
    Prop :=
  Inv service Asked t ∧ Later s t ∧ ∀ other, other ≠ lane → Rely other s t

theorem StepOk.same (h : Inv service Asked s) : StepOk service Asked lane s s :=
  ⟨h, .refl s, fun other _ => .refl other s⟩

/-- A step that takes or gives back a gate. -/
theorem StepOk.gate (h : Inv service Asked s)
    (hgate : s.gate network = none ∨ s.gate network = some lane)
    (hgated : ∀ other, other ≠ lane → gated other = s.gated other) :
    StepOk service Asked lane s
      { s with gate := update s.gate network holder, gated := gated } := by
  refine ⟨h.gates _ _, .same rfl rfl, fun other hother => .gates ?_ (hgated other hother)⟩
  rintro hnet
  rcases hgate with hgate | hgate
  · rw [hgate] at hnet
    cases hnet
  · rw [hgate] at hnet
    exact hother (Option.some.inj hnet).symm

section

variable (h : Inv service Asked s)
include h

/-- A step that sends what is stored. -/
theorem StepOk.send {id : AuthorizationID} {raw : RawTransaction}
    (howes : ∃ row signed, s.rows.lookup id = some row ∧ row.signed = some signed
      ∧ signed.rawTransaction = raw) :
    StepOk service Asked lane s { s with sent := s.sent ++ [⟨id, raw, s.rows.lookup id⟩] } := by
  obtain ⟨row, signed, hrow, hsigned, hraw⟩ := howes
  refine ⟨⟨h.rows, h.single, fun sending hmem => ?_, h.answers⟩, .same rfl rfl,
    fun other _ => ⟨.same rfl rfl, fun _ hgate => hgate, fun _ _ _ _ => Iff.rfl, rfl, rfl⟩⟩
  rcases mem_append.mp hmem with hmem | hmem
  · exact h.sent sending hmem
  · rw [mem_singleton] at hmem
    subst hmem
    exact ⟨row, signed, hrow, hsigned, hraw, (h.rows id row hrow).state_of_signed hsigned, row,
      hrow, .refl row⟩

/-- A step that answers rightly. -/
theorem StepOk.answer {request : PaymentRequest} {result : Except OperationError SettleResponse}
    (howes : AnswerOk service s.rows ⟨request, s.found lane, s.gated lane, result⟩) :
    StepOk service Asked lane s
      { s with
        answers := s.answers ++ [⟨request, s.found lane, s.gated lane, result⟩] } := by
  refine ⟨⟨h.rows, h.single, h.sent, fun answered hmem => ?_⟩, .same rfl rfl,
    fun other _ => ⟨.same rfl rfl, fun _ hgate => hgate, fun _ _ _ _ => Iff.rfl, rfl, rfl⟩⟩
  rcases mem_append.mp hmem with hmem | hmem
  · exact h.answers answered hmem
  · rw [mem_singleton] at hmem
    subst hmem
    exact howes

theorem StepOk.arrive (row : Option Settlement) :
    StepOk service Asked lane s
      { s with found := update s.found lane row, gated := update s.gated lane false } := by
  refine ⟨⟨h.rows, h.single, h.sent, h.answers⟩, .same rfl rfl, fun other hother =>
    ⟨.same rfl rfl, fun _ hgate => hgate, fun _ _ _ _ => Iff.rfl, ?_, ?_⟩⟩
  · exact update_of_ne hother ..
  · exact update_of_ne hother ..

end

section

variable (hinv : Inv service Asked s)
include hinv

/-- **One request** of a lane that meets what it owes. -/
theorem serves_step {request : facilitatorInterface.Request}
    {answer : facilitatorInterface.Answer request}
    (howes : Owes service Asked lane request s) (hserves : Serves lane request s answer t) :
    StepOk service Asked lane s t := by
  cases request with
  | arrive id =>
    cases hserves
    exact .arrive hinv _
  | answer request result =>
    cases hserves
    exact .answer hinv howes
  | healthy network | guard =>
    cases hserves
    exact .same hinv
  | tryGate network =>
    rcases hserves with ⟨-, hfree, rfl⟩ | ⟨-, -, rfl⟩
    · exact .gate hinv (.inl hfree) fun other hother => update_of_ne hother ..
    · exact .same hinv
  | awaitGate network =>
    rcases hserves with ⟨-, hfree, rfl⟩ | ⟨-, rfl⟩
    · exact .gate hinv (.inl hfree) fun _ _ => rfl
    · exact .same hinv
  | releaseGate network =>
    cases hserves
    exact .gate hinv (.inr howes) fun _ _ => rfl
  | get id | pendingCount network | pending network =>
    obtain ⟨rfl, -⟩ := hserves
    exact .same hinv
  | write statement =>
    rcases hserves with ⟨-, rfl⟩ | ⟨count, rows, happly, -, rfl⟩
    · exact .same hinv
    · exact Lawful.step howes hinv (Statement.effect happly)
  | rpc read | view query =>
    cases hserves
    exact .same hinv
  | send id raw =>
    cases hserves
    exact .send hinv howes
  | ticks =>
    cases hserves
    exact .same hinv
  | observe config hash =>
    obtain ⟨rfl, -⟩ := hserves
    exact .same hinv

/-- The environment keeps the invariant and what every lane relies on. -/
theorem environment_step (henv : Environment s t) :
    Inv service Asked t ∧ Later s t ∧ ∀ lane, Rely lane s t := by
  obtain ⟨hash, receipt, hnone, rfl⟩ := henv
  have hfinal : FinalMove s.final (update s.final hash (some receipt)) := by
    intro other found hfound
    rw [update_of_ne ?_]
    · exact hfound
    · rintro rfl
      rw [hnone] at hfound
      cases hfound
  refine ⟨⟨fun id row hrow => (hinv.rows id row hrow).later hfinal, hinv.single, hinv.sent,
    hinv.answers⟩, ⟨.refl _, hfinal⟩, fun lane => ?_⟩
  exact ⟨⟨.refl _, hfinal⟩, fun _ hgate => hgate, fun _ _ _ _ => Iff.rfl, rfl, rfl⟩

theorem crash_step (hcrash : Crash s t) : Inv service Asked t ∧ Later s t := by
  cases hcrash
  exact ⟨hinv.gates _ _, .same rfl rfl⟩

end

end Serving

end Facilitator
