/-
  RfqSettlement.Core.Engine

  The single-writer state machine (`core/src/engine.rs`).

  A command handler returns its answer with the engine and the event buffer it
  leaves behind, also when it refuses.  Each handler is split as the source is:
  a check, which reads and may refuse, and a commit, which cannot.
-/

import RfqSettlement.Core.Selection

namespace RfqSettlement

structure Engine where
  config : Config
  ledger : Ledger
  /-- Arrival order for quotes, the selection tiebreak. -/
  nextArrival : Nat
deriving DecidableEq, Repr

/-- Validate the configuration and construct the engine. -/
def Engine.new (config : Config) : Except ConfigError Engine :=
  match config.validate with
  | .error e => .error e
  | .ok () => .ok ⟨config, Ledger.new config, 0⟩

-- ============================================================================
-- Quote chains
-- ============================================================================

namespace Ledger

/-- Assignment to one leg of a request. -/
def modifyLeg (l : Ledger) (request : ReqIdx) (leg : Nat) (f : Leg → Leg) : Ledger :=
  l.modifyRequest request fun r => r.modifyLeg leg f

def legOf (l : Ledger) (request : ReqIdx) (leg : Nat) : Option Leg :=
  (l.request request).bind fun r => r.leg leg

/-- Link a quote at the head of its leg's chain. -/
def linkQuote (l : Ledger) (request : ReqIdx) (leg : Nat) (quote : QuoteIdx) : Ledger :=
  let head : Link := ((l.legOf request leg).map Leg.quotesHead).getD none
  let l := l.modifyQuote quote fun q => { q with nextOnLeg := head }
  l.modifyLeg request leg fun leg =>
    { leg with quotesHead := some quote.index, quoteCount := min (leg.quoteCount + 1) 255 }

/-- The next quote after `quote` on its leg. -/
def nextOnLeg (l : Ledger) (quote : QuoteIdx) : Link :=
  ((l.quote quote).map Quote.nextOnLeg).getD none

/-- The search for the quote before `quote`, from `cursor`. -/
def unlinkQuoteFrom (l : Ledger) (request : ReqIdx) (leg : Nat) (quote : QuoteIdx) :
    Nat → Link → Ledger
  | _, none => l
  | 0, some _ => l
  | fuel + 1, some index =>
    match l.quoteHandleAt index with
    | none => l
    | some handle =>
      match l.quote handle with
      | none => l
      | some current =>
        if current.nextOnLeg = some quote.index then
          (l.modifyQuote handle fun q => { q with nextOnLeg := l.nextOnLeg quote }).modifyLeg
            request leg fun leg => { leg with quoteCount := leg.quoteCount - 1 }
        else l.unlinkQuoteFrom request leg quote fuel current.nextOnLeg

/-- Unlink a quote from its leg's chain. -/
def unlinkQuote (l : Ledger) (request : ReqIdx) (leg : Nat) (quote : QuoteIdx) : Ledger :=
  match l.legOf request leg with
  | none => l
  | some record =>
    if record.quotesHead = some quote.index then
      l.modifyLeg request leg fun leg =>
        { leg with quotesHead := l.nextOnLeg quote, quoteCount := leg.quoteCount - 1 }
    else l.unlinkQuoteFrom request leg quote l.quotes.capacity record.quotesHead

/-- Release a claim, if there is one. -/
def releaseIfHeld (l : Ledger) (claim : Option ResIdx) : Ledger :=
  match claim with
  | some claim => CommitPhase.release l claim
  | none => l

/-- Take a standing quote off its leg: its claim is released, it leaves the chain
    and its slot is freed.  The event in between is the caller's. -/
def retireQuote (l : Ledger) (request : ReqIdx) (leg : Nat) (quote : QuoteIdx)
    (claim : Option ResIdx) : Ledger :=
  let l := l.releaseIfHeld claim
  let l := l.modifyQuote quote fun q => q.setState .released
  let l := l.unlinkQuote request leg quote
  CommitPhase.closeQuote l quote

end Ledger

-- ============================================================================
-- Shared commit-phase helpers
-- ============================================================================

/-- What the commit phase of a command works on. -/
abbrev Work := Ledger × EventBuffer

namespace Work

def push (w : Work) (event : Event) : Work := (w.1, w.2.push event)

/-- One quote of a leg being released.  One that was already dead is reported as
    expired. -/
def releaseQuote (w : Work) (request : ReqIdx) (leg now : Nat) (reason : QuoteRejectReason)
    (handle : QuoteIdx) : Work :=
  match w.1.quote handle with
  | none => w
  | some quote =>
    (w.1.retireQuote request leg handle quote.claim,
      w.2.push (if quote.isLiveAt now then .quoteRejected handle quote.maker reason
        else .quoteExpired handle quote.maker))

/-- The quotes a leg's release dooms: all of its chain except `keep`, up to the
    storage bound. -/
def doomed (l : Ledger) (leg : Leg) (keep : Option Selection) : List QuoteIdx :=
  (((l.walkLeg leg).map Prod.fst).filter fun h =>
    !(keep.any fun k => decide (k.quote = h))).take MAX_QUOTES_PER_LEG

/-- Release every quote on `leg` except `keep`, notifying each maker. -/
def releaseLeg (w : Work) (request : ReqIdx) (leg : Nat) (keep : Option Selection) (now : Nat)
    (reason : QuoteRejectReason) : Work :=
  match w.1.legOf request leg with
  | none => (w.1.debugAssert false, w.2)
  | some record =>
    (doomed w.1 record keep).foldl (fun w h => w.releaseQuote request leg now reason h) w

/-- Recompute the best selection of a leg and publish it if it changed. -/
def publishSelection (w : Work) (request : ReqIdx) (leg now : Nat) : Work :=
  match w.1.legOf request leg with
  | none => w
  | some record =>
    match w.1.bestOnLeg record now with
    | .error _ => w
    | .ok best =>
      if record.published = some best.price then w
      else
        (w.1.modifyLeg request leg fun leg => { leg with published := some best.price },
          w.2.push (.bestSelectionChanged request leg best.price))

end Work

namespace Engine

/-- A handler's answer, with what it leaves behind. -/
abbrev Answer := Except EngineError Unit × Engine × EventBuffer

/-- Refuse, leaving the engine and the buffer as they are. -/
def refuse (engine : Engine) (events : EventBuffer) (error : EngineError) : Answer :=
  (.error error, engine, events)

/-- Commit what was worked out. -/
def done (engine : Engine) (w : Work) : Answer :=
  (.ok (), { engine with ledger := w.1 }, w.2)

-- ============================================================================
-- SubmitRequest
-- ============================================================================

/-- The leg checks of a request, in order, adding up its reservation. -/
def checkLegs (engine : Engine) (now : Nat) : List LegSpec → Nat → Except EngineError Nat
  | [], reservation => .ok reservation
  | spec :: specs, reservation =>
    if spec.size = 0 then .error .zeroSize
    else if UNIT < spec.limit then .error .priceOutOfRange
    else
      match engine.ledger.contract spec.contract with
      | none => .error .unknownContract
      | some contract =>
        match checkedSub contract.eventDate engine.config.minHorizon with
        | none => .error .contractTooNear
        | some horizon =>
          if horizon ≤ now then .error .contractTooNear
          else
            match (Size.checkedMul spec.size spec.limit).bind fun leg => checkedAdd reservation leg with
            | none => .error .amountOverflow
            | some reservation => engine.checkLegs now specs reservation

def submitRequest (engine : Engine) (requester deadline : Nat) (legs : List LegSpec) (now : Nat)
    (events : EventBuffer) : Answer :=
  if legs.length = 0 then engine.refuse events .noLegs
  else if engine.config.maxLegs < legs.length then engine.refuse events .tooManyLegs
  else if deadline ≤ now then engine.refuse events .deadlineInThePast
  else if engine.config.maxRequestTtl < deadline - now then engine.refuse events .deadlineTooFar
  else
    match engine.checkLegs now legs 0 with
    | .error e => engine.refuse events e
    | .ok reservation =>
      if !events.headroom 1 then engine.refuse events .eventBufferFull
      else
        let record := Request.new requester deadline
          (legs.map fun s => Leg.new s.contract s.side s.size s.limit)
        match engine.ledger.openRequestReserving record reservation with
        | (.error e, ledger) => { engine with ledger }.refuse events (.ledger e)
        | (.ok (request, _), ledger) =>
          engine.done (ledger, events.push (.requestOpened request deadline
            (legs.map fun s => ⟨s.contract, s.side, s.size⟩)))

-- ============================================================================
-- RejectRequest
-- ============================================================================

/-- The legs of a rejected request, released one after another. -/
def rejectLegs (w : Work) (request : ReqIdx) (nLegs now : Nat) : Work :=
  (List.range nLegs).foldl (fun w leg => w.releaseLeg request leg none now .requestRejected) w

def rejectRequest (engine : Engine) (request : ReqIdx) (now : Nat) (events : EventBuffer) :
    Answer :=
  match engine.ledger.request request with
  | none => engine.refuse events .unknownRequest
  | some record =>
    if record.state ≠ .opened then engine.refuse events .requestNotOpen
    else if !events.headroom (record.nLegs * engine.config.maxQuotesPerLeg) then
      engine.refuse events .eventBufferFull
    else
      let w := rejectLegs (engine.ledger, events) request record.nLegs now
      engine.done ((w.1.releaseIfHeld record.claim).modifyRequest request
        fun r => r.setState .rejected, w.2)

-- ============================================================================
-- SubmitQuote
-- ============================================================================

/-- Whether this maker's standing quote, or the leg's quote count, admits another
    quote. -/
def checkReplacement (engine : Engine) (leg : Leg) (standing : Option QuoteIdx) (price : Nat) :
    Except EngineError Unit :=
  match standing with
  | some standing =>
    match engine.ledger.quote standing with
    | none => .error .unknownQuote
    | some existing => if existing.price < price then .error .worseReplacement else .ok ()
  | none =>
    if engine.config.maxQuotesPerLeg ≤ leg.quoteCount then .error .legQuoteLimitReached else .ok ()

/-- The admission checks.  None of them is on the price against the limit.
    Returns the standing quote and the contribution to reserve. -/
def checkQuote (engine : Engine) (maker : Nat) (request : ReqIdx)
    (legId price size expiresAt now : Nat) (events : EventBuffer) :
    Except EngineError (Option QuoteIdx × Nat) :=
  match engine.ledger.request request with
  | none => .error .unknownRequest
  | some record =>
    if record.state ≠ .opened then .error .requestNotOpen
    else if record.deadline ≤ now then .error .requestDeadlinePassed
    else
      match record.leg legId with
      | none => .error .unknownLeg
      | some leg =>
        if expiresAt ≤ now then .error .quoteExpiryInThePast
        else if engine.config.maxQuoteTtl < expiresAt - now then .error .quoteTtlTooLong
        else if UNIT < price then .error .priceOutOfRange
        else if size < leg.size then .error .quoteTooSmall
        else
          match engine.checkReplacement leg (engine.ledger.standingQuoteOf leg maker) price with
          | .error e => .error e
          | .ok () =>
            match Size.makerContribution leg.size price with
            | none => .error .amountOverflow
            | some contribution =>
              if !events.headroom 2 then .error .eventBufferFull
              else .ok (engine.ledger.standingQuoteOf leg maker, contribution)

/-- The replacement: the standing quote is released before the new one reserves. -/
def withdrawStanding (w : Work) (maker : Nat) (request : ReqIdx) (leg : Nat)
    (standing : Option QuoteIdx) : Work :=
  match standing with
  | none => w
  | some standing =>
    (w.1.retireQuote request leg standing ((w.1.quote standing).bind Quote.claim),
      w.2.push (.quoteRejected standing maker .replaced))

def submitQuote (engine : Engine) (maker : Nat) (request : ReqIdx)
    (legId price size expiresAt now : Nat) (events : EventBuffer) : Answer :=
  match engine.checkQuote maker request legId price size expiresAt now events with
  | .error e => engine.refuse events e
  | .ok (standing, contribution) =>
    let w := withdrawStanding (engine.ledger, events) maker request legId standing
    let arrival := engine.nextArrival
    let engine := { engine with nextArrival := min (engine.nextArrival + 1) u64Max }
    let record := Quote.new maker request legId price size expiresAt arrival
    match w.1.openQuoteReserving record contribution with
    | (.error e, ledger) => { engine with ledger }.refuse w.2 (.ledger e)
    | (.ok (quote, _), ledger) =>
      engine.done (Work.publishSelection (ledger.linkQuote request legId quote, w.2) request legId
        now)

-- ============================================================================
-- AcceptRequest
-- ============================================================================

/-- The PLAN phase: a winner for every leg, and the requester's contribution.
    `index` is the leg the lists stand at. -/
def planAccept (engine : Engine) (now : Nat) :
    Nat → List Leg → List ExpectedFill → List Selection → Nat →
      Except EngineError (List Selection × Nat)
  | _, [], _, plan, total => .ok (plan, total)
  | index, leg :: legs, expected, plan, total =>
    match engine.ledger.bestOnLeg leg now with
    | .error reason => .error (.noEligibleQuote index reason)
    | .ok selection =>
      match expected with
      | [] => .error .legCountMismatch
      | view :: expected =>
        if view.leg ≠ index then .error .legCountMismatch
        else if view.price < selection.price then
          .error (.presentationStale index view.price selection.price)
        else
          match (Size.requesterContribution leg.size selection.price).bind
              fun leg => checkedAdd total leg with
          | none => .error .amountOverflow
          | some total => engine.planAccept now (index + 1) legs expected (plan ++ [selection]) total

/-- Assemble the settlement bundle from the plan. -/
def buildIntent (l : Ledger) : List Leg → List Selection → Except EngineError (List IntentLeg)
  | [], _ => .ok []
  | _ :: _, [] => .error .legCountMismatch
  | leg :: legs, selection :: plan =>
    match l.quote selection.quote with
    | none => .error .unknownQuote
    | some winner =>
      match buildIntent l legs plan with
      | .error e => .error e
      | .ok intent =>
        .ok (⟨leg.contract, leg.side, leg.size, winner.maker, selection.price, winner.expiresAt⟩ ::
          intent)

/-- What an accept commits to: the plan, the requester's contribution and claim,
    and the intent. -/
structure Acceptance where
  record : Request
  plan : List Selection
  total : Nat
  claim : ResIdx
  intent : List IntentLeg
deriving DecidableEq, Repr

/-- PLAN and CHECK of an accept. -/
def checkAccept (engine : Engine) (request : ReqIdx) (expected : List ExpectedFill) (now : Nat)
    (events : EventBuffer) : Except EngineError Acceptance :=
  match engine.ledger.request request with
  | none => .error .unknownRequest
  | some record =>
    if record.state ≠ .opened then .error .requestNotOpen
    else if record.deadline ≤ now then .error .requestDeadlinePassed
    else if expected.length ≠ record.nLegs then .error .legCountMismatch
    else
      match engine.planAccept now 0 record.legs expected [] 0 with
      | .error e => .error e
      | .ok (plan, total) =>
        match record.claim with
        | none => .error .reservationShortfall
        | some claim =>
          match engine.ledger.reservation claim with
          | none => .error .reservationShortfall
          | some reservation =>
            if reservation.amount < total then .error .reservationShortfall
            else if !events.headroom (record.nLegs * engine.config.maxQuotesPerLeg + 1) then
              .error .eventBufferFull
            else
              match buildIntent engine.ledger record.legs plan with
              | .error e => .error e
              | .ok intent => .ok ⟨record, plan, total, claim, intent⟩

/-- Move the winning maker's claim to `committed`, at its full amount. -/
def consumeWinner (l : Ledger) (request : ReqIdx) (winner : Selection) : Ledger :=
  let claim := (l.quote winner.quote).bind Quote.claim
  let amount := ((claim.bind l.reservation).map Reservation.amount).getD 0
  let l := l.modifyQuote winner.quote fun q => q.setState .consumed
  match claim with
  | some claim => Ledger.CommitPhase.commit l claim request amount
  | none => l

/-- One leg of an accept: the losers are released, the winner is consumed. -/
def acceptLeg (w : Work) (request : ReqIdx) (leg : Nat) (winner : Selection) (now : Nat) : Work :=
  let w := w.releaseLeg request leg (some winner) now .outbid
  (consumeWinner w.1 request winner, w.2)

/-- The legs of an accept, from leg `index` on. -/
def acceptLegs (request : ReqIdx) (now : Nat) : Nat → List Selection → Work → Work
  | _, [], w => w
  | index, winner :: plan, w =>
    acceptLegs request now (index + 1) plan (acceptLeg w request index winner now)

/-- The commit phase of an accept. -/
def commitAccept (engine : Engine) (request : ReqIdx) (a : Acceptance) (now : Nat)
    (events : EventBuffer) : Work :=
  let w := acceptLegs request now 0 a.plan (engine.ledger, events)
  let l := Ledger.CommitPhase.commit w.1 a.claim request a.total
  let deadline := saturatingAdd now engine.config.maxSettlingTime
  (l.modifyRequest request fun r => r.setState (.settling (Nonce.of request) deadline),
    w.2.push (.submitIntent request (Nonce.of request) a.record.requester a.intent))

def acceptRequest (engine : Engine) (request : ReqIdx) (expected : List ExpectedFill) (now : Nat)
    (events : EventBuffer) : Answer :=
  match engine.checkAccept request expected now events with
  | .error e => engine.refuse events e
  | .ok a => engine.done (engine.commitAccept request a now events)

-- ============================================================================
-- PollSettlement
-- ============================================================================

/-- The request a nonce names, if the slot is still occupied by that generation. -/
def resolveNonce (l : Ledger) (nonce : Nonce) : Option ReqIdx :=
  match l.requestHandleAt nonce.request with
  | none => none
  | some handle => if handle.generation = nonce.generation then some handle else none

/-- Free the slots of a request's consumed quotes, once their claims are gone. -/
def closeConsumedQuotes (l : Ledger) (request : ReqIdx) : Ledger :=
  let doomed := ((l.quotes.iter.filter fun x =>
    decide (x.2.request = request ∧ x.2.state = .consumed ∧ x.2.claim = none)).map Prod.fst).take
      MAX_LEGS
  doomed.foldl Ledger.CommitPhase.closeQuote l

/-- The quotes among the owners a discharge visited, with their makers. -/
def notices (l : Ledger) (visited : List (ResOwner × Nat)) : List (QuoteIdx × Nat) :=
  ((visited.filterMap fun x =>
    match x.1 with
    | .quote quote => some quote
    | .request _ => none).take MAX_LEGS).map fun quote =>
      (quote, ((l.quote quote).map Quote.maker).getD 0)

def settleRequest (engine : Engine) (request : ReqIdx) (nonce : Nonce) (events : EventBuffer) :
    Work :=
  let (_, l) := Ledger.CommitPhase.dischargeCommitted engine.ledger request
  let l := l.modifyRequest request fun r => r.setState .escrowed
  (closeConsumedQuotes l request, events.push (.requestEscrowed request nonce))

def failRequest (engine : Engine) (request : ReqIdx) (nonce : Nonce) (events : EventBuffer) :
    Work :=
  let (visited, l) := Ledger.CommitPhase.dischargeCommitted engine.ledger request
  let events := (notices l visited).foldl
    (fun events n => events.push (.quoteRejected n.1 n.2 .settlementFailed)) events
  let l := closeConsumedQuotes l request
  (l.modifyRequest request fun r => r.setState .settlementFailed,
    events.push (.requestSettlementFailed request nonce))

def pollSettlement (engine : Engine) (reported : Nonce) (status : TxStatus) (now : Nat)
    (events : EventBuffer) : Answer :=
  match resolveNonce engine.ledger reported with
  | none => engine.refuse events .staleNonce
  | some request =>
    match engine.ledger.request request with
    | none => engine.refuse events .unknownRequest
    | some record =>
      match record.state with
      | .settling nonce deadline =>
        if nonce ≠ reported then engine.refuse events .staleNonce
        else
          match status with
          | .unknown | .pending =>
            if now < deadline then (.ok (), engine, events)
            else if !events.headroom 1 then engine.refuse events .eventBufferFull
            else (.ok (), engine, events.push (.settlementStalled request nonce status))
          | .settled =>
            if !events.headroom 1 then engine.refuse events .eventBufferFull
            else engine.done (engine.settleRequest request nonce events)
          | .reverted =>
            if !events.headroom (record.nLegs + 1) then engine.refuse events .eventBufferFull
            else engine.done (engine.failRequest request nonce events)
      | _ => engine.refuse events .requestNotSettling

-- ============================================================================
-- Resolution
-- ============================================================================

/-- The event a report is worth, if it resolves the contract. -/
def resolution (contract : Nat) : OracleStatus → List Event
  | .final outcome => [.contractResolved contract outcome]
  | _ => []

def reportOracleStatus (engine : Engine) (contract : Nat) (status : OracleStatus)
    (events : EventBuffer) : Answer :=
  match engine.ledger.contract contract with
  | none => engine.refuse events .unknownContract
  | some record =>
    if !record.mayReport status then engine.refuse events .oracleStatusRegression
    else if !events.headroom (resolution contract status).length then
      engine.refuse events .eventBufferFull
    else
      engine.done (engine.ledger.setOracleStatus contract status,
        (resolution contract status).foldl EventBuffer.push events)

/-- A report is refused, or moves the status forwards. -/
theorem reportOracleStatus_cases (engine : Engine) (contract : Nat) (status : OracleStatus)
    (events : EventBuffer) :
    (∃ err, engine.reportOracleStatus contract status events = engine.refuse events err) ∨
      ∃ record, engine.ledger.contract contract = some record ∧ record.mayReport status = true ∧
        engine.reportOracleStatus contract status events =
          engine.done (engine.ledger.setOracleStatus contract status,
            (resolution contract status).foldl EventBuffer.push events) := by
  unfold Engine.reportOracleStatus
  split
  · exact .inl ⟨_, rfl⟩
  next record hrecord =>
  split
  · exact .inl ⟨_, rfl⟩
  next hmay =>
  split
  · exact .inl ⟨_, rfl⟩
  · exact .inr ⟨record, hrecord, by simpa using hmay, rfl⟩

def settleEscrow (engine : Engine) (escrow contract now : Nat) (events : EventBuffer) : Answer :=
  match engine.ledger.contract contract with
  | none => engine.refuse events .unknownContract
  | some record =>
    match record.outcome now engine.config.stallGrace with
    | none => engine.refuse events .outcomeNotYet
    | some outcome =>
      if !events.headroom 1 then engine.refuse events .eventBufferFull
      else (.ok (), engine, events.push (.settleIntent escrow contract outcome))

-- ============================================================================
-- Apply
-- ============================================================================

/-- Which accounts a command touches, from its addressing alone. -/
def touchedAccounts (engine : Engine) : Command → List Nat
  | .creditAccount account _ => [account]
  | .registerContract .. | .reportOracleStatus .. | .settleEscrow .. => []
  | .submitRequest requester _ _ => [requester]
  | .submitQuote maker request _ _ _ _ =>
    maker :: ((engine.ledger.request request).map Request.requester).toList
  | .rejectRequest request | .acceptRequest request _ =>
    ((engine.ledger.request request).map Request.requester).toList
  | .pollSettlement nonce _ =>
    (((resolveNonce engine.ledger nonce).bind engine.ledger.request).map Request.requester).toList
  | .cancelQuote quote => ((engine.ledger.quote quote).map Quote.maker).toList

/-- Run normalisation for one account. -/
def normalise (engine : Engine) (account now : Nat) : Engine :=
  { engine with ledger := (engine.ledger.releaseExpired account now).2 }

/-- Normalisation of every touched account, in order. -/
def normaliseAll (engine : Engine) (accounts : List Nat) (now : Nat) : Engine :=
  accounts.foldl (fun engine account => engine.normalise account now) engine

/-- The command itself, on a normalised engine. -/
def perform (engine : Engine) (command : Command) (now : Nat) (events : EventBuffer) : Answer :=
  match command with
  | .creditAccount account free =>
    match engine.ledger.applyMirrorUpdate account free with
    | (.error e, ledger) => { engine with ledger }.refuse events (.ledger e)
    | (.ok (), ledger) => engine.done (ledger, events)
  | .registerContract contract eventDate =>
    match engine.ledger.registerContract contract eventDate with
    | (.error e, ledger) => { engine with ledger }.refuse events (.ledger e)
    | (.ok (), ledger) => engine.done (ledger, events)
  | .submitRequest requester deadline legs =>
    engine.submitRequest requester deadline legs now events
  | .rejectRequest request => engine.rejectRequest request now events
  | .submitQuote maker request leg price size expiresAt =>
    engine.submitQuote maker request leg price size expiresAt now events
  | .cancelQuote quote =>
    if (engine.ledger.quote quote).isNone then engine.refuse events .unknownQuote
    else engine.refuse events .quotesAreIrrevocable
  | .acceptRequest request expected => engine.acceptRequest request expected now events
  | .pollSettlement nonce status => engine.pollSettlement nonce status now events
  | .reportOracleStatus contract status => engine.reportOracleStatus contract status events
  | .settleEscrow escrow contract => engine.settleEscrow escrow contract now events

/-- Apply one command at the instant `now`: normalise the accounts it touches,
    then perform it.  `now` is sampled once, by the caller. -/
def apply (engine : Engine) (command : Command) (now : Nat) (events : EventBuffer) : Answer :=
  (engine.normaliseAll (engine.touchedAccounts command) now).perform command now events

end Engine

end RfqSettlement
