/-
  RfqSettlement.Core.Chronicle

  The event stream tells the life of every request.

  Four kinds of event say how far a request has come.  `Chapter` is what one command tells
  of a request beside what becomes of it, `Story` all that was ever told of one; whatever
  the instants and the room in the buffers, the second follows from the first by induction
  on the run.
-/

import RfqSettlement.Core.Coverage
import RfqSettlement.Core.Telling
import RfqSettlement.Core.Metering

namespace RfqSettlement

-- ============================================================================
-- Milestones
-- ============================================================================

/-- The request an event takes one stage further. -/
def Event.milestone : Event → Option ReqIdx
  | .requestOpened request .. | .submitIntent request .. | .requestEscrowed request _
  | .requestSettlementFailed request _ => some request
  | _ => none

/-- What some events tell of a request's stages. -/
def milestones (r : ReqIdx) (events : List Event) : List Event :=
  events.filter fun event => decide (event.milestone = some r)

/-- A leg as its request announces it. -/
def LegSpec.announced (leg : LegSpec) : OpenLeg := ⟨leg.contract, leg.side, leg.size⟩

def IntentLeg.announced (leg : IntentLeg) : OpenLeg := ⟨leg.contract, leg.side, leg.size⟩

/-- The event a request is opened with. -/
def Auction.announcement (r : ReqIdx) (a : Auction) : Event :=
  .requestOpened r a.deadline (a.legs.map LegSpec.announced)

@[simp] theorem Auction.announcement_withState {r : ReqIdx} {a : Auction} {st : RequestState} :
    (a.withState st).announcement r = a.announcement r := rfl

/-- What one command tells of `r`, from `m` to `m'`. -/
inductive Chapter (r : ReqIdx) (m m' : Market) : List Event → Prop where
  | silent (hsame : m'.auctions r = m.auctions r) : Chapter r m m' []
  | opened {a : Auction} (hnone : m.auctions r = none) (ha : m'.auctions r = some a)
      (hopened : a.state = .opened) : Chapter r m m' [a.announcement r]
  | rejected {a : Auction} (ha : m.auctions r = some a) (hopened : a.state = .opened)
      (ha' : m'.auctions r = some (a.withState .rejected)) : Chapter r m m' []
  | ordered {a : Auction} {deadline : Nat} {legs : List IntentLeg} (ha : m.auctions r = some a)
      (hopened : a.state = .opened)
      (ha' : m'.auctions r = some (a.withState (.settling (Nonce.of r) deadline)))
      (hlegs : legs.map IntentLeg.announced = a.legs.map LegSpec.announced) :
      Chapter r m m' [.submitIntent r (Nonce.of r) a.requester legs]
  | escrowed {a : Auction} {deadline : Nat} (ha : m.auctions r = some a)
      (hsettling : a.state = .settling (Nonce.of r) deadline)
      (ha' : m'.auctions r = some (a.withState .escrowed)) :
      Chapter r m m' [.requestEscrowed r (Nonce.of r)]
  | failed {a : Auction} {deadline : Nat} (ha : m.auctions r = some a)
      (hsettling : a.state = .settling (Nonce.of r) deadline)
      (ha' : m'.auctions r = some (a.withState .settlementFailed)) :
      Chapter r m m' [.requestSettlementFailed r (Nonce.of r)]

/-- All that is told of a request, by where it stands. -/
inductive Story (r : ReqIdx) : Option Auction → List Event → Prop where
  | unknown : Story r none []
  | opened {a : Auction} (hstate : a.state = .opened ∨ a.state = .rejected) :
      Story r (some a) [a.announcement r]
  | settling {a : Auction} {deadline : Nat} {legs : List IntentLeg}
      (hstate : a.state = .settling (Nonce.of r) deadline)
      (hlegs : legs.map IntentLeg.announced = a.legs.map LegSpec.announced) :
      Story r (some a) [a.announcement r, .submitIntent r (Nonce.of r) a.requester legs]
  | escrowed {a : Auction} {legs : List IntentLeg} (hstate : a.state = .escrowed)
      (hlegs : legs.map IntentLeg.announced = a.legs.map LegSpec.announced) :
      Story r (some a) [a.announcement r, .submitIntent r (Nonce.of r) a.requester legs,
        .requestEscrowed r (Nonce.of r)]
  | failed {a : Auction} {legs : List IntentLeg} (hstate : a.state = .settlementFailed)
      (hlegs : legs.map IntentLeg.announced = a.legs.map LegSpec.announced) :
      Story r (some a) [a.announcement r, .submitIntent r (Nonce.of r) a.requester legs,
        .requestSettlementFailed r (Nonce.of r)]

variable {r r₀ : ReqIdx} {m m' : Market} {events told : List Event} {event : Event}

theorem milestones_append : milestones r (events ++ told) = milestones r events ++ milestones r told :=
  List.filter_append ..

theorem milestones_of_mute (hmute : ∀ event ∈ events, event.milestone = none) : milestones r events = [] := by
  refine List.filter_eq_nil_iff.mpr fun event hevent => ?_
  rw [hmute event hevent]
  simp

theorem milestone_of_notice (hnotice : event.isNotice = true) : event.milestone = none := by
  cases event with
  | quoteRejected | quoteExpired => rfl
  | _ => cases hnotice

/-- Notices, and then one milestone. -/
theorem milestones_notices (hnotices : ∀ event ∈ events, event.isNotice = true)
    (hlast : event.milestone = some r₀) :
    milestones r (events ++ [event]) = if r₀ = r then [event] else [] := by
  rw [milestones_append, milestones_of_mute fun x hx => milestone_of_notice (hnotices x hx), List.nil_append,
    milestones, List.filter_cons, hlast]
  by_cases hr : r₀ = r <;> simp [hr]

theorem Chapter.congr {n : Market} (h : Chapter r n m' told) (hsame : n.auctions = m.auctions) :
    Chapter r m m' told := by
  cases h with
  | silent hstays => exact .silent (hstays.trans (congrFun hsame r))
  | opened hnone ha hopened => exact .opened (hsame ▸ hnone) ha hopened
  | rejected ha hopened ha' => exact .rejected (hsame ▸ ha) hopened ha'
  | ordered ha hopened ha' hlegs => exact .ordered (hsame ▸ ha) hopened ha' hlegs
  | escrowed ha hsettling ha' => exact .escrowed (hsame ▸ ha) hsettling ha'
  | failed ha hsettling ha' => exact .failed (hsame ▸ ha) hsettling ha'

/-- What was told, and one chapter more. -/
theorem Chapter.story (hchapter : Chapter r m m' told) (hstory : Story r (m.auctions r) events) :
    Story r (m'.auctions r) (events ++ told) := by
  have hstands : ∀ {a : Auction}, m.auctions r = some a → Story r (some a) events := fun ha => ha ▸ hstory
  cases hchapter with
  | silent hsame =>
      rw [hsame, List.append_nil]
      exact hstory
  | opened hnone ha hopened =>
      rw [hnone] at hstory
      cases hstory
      rw [ha]
      exact .opened (.inl hopened)
  | @rejected a ha hopened ha' =>
      rw [ha', List.append_nil]
      cases hstands ha with
      | opened => exact .opened (.inr rfl)
      | settling hstate => cases hopened.symm.trans hstate
      | escrowed hstate => cases hopened.symm.trans hstate
      | failed hstate => cases hopened.symm.trans hstate
  | @ordered a deadline legs ha hopened ha' hlegs =>
      rw [ha']
      cases hstands ha with
      | opened => exact .settling rfl hlegs
      | settling hstate => cases hopened.symm.trans hstate
      | escrowed hstate => cases hopened.symm.trans hstate
      | failed hstate => cases hopened.symm.trans hstate
  | @escrowed a deadline ha hsettling ha' =>
      rw [ha']
      cases hstands ha with
      | opened hstate => rcases hstate with hstate | hstate <;> cases hsettling.symm.trans hstate
      | settling _ hlegs => exact .escrowed rfl hlegs
      | escrowed hstate => cases hsettling.symm.trans hstate
      | failed hstate => cases hsettling.symm.trans hstate
  | @failed a deadline ha hsettling ha' =>
      rw [ha']
      cases hstands ha with
      | opened hstate => rcases hstate with hstate | hstate <;> cases hsettling.symm.trans hstate
      | settling _ hlegs => exact .failed rfl hlegs
      | escrowed hstate => cases hsettling.symm.trans hstate
      | failed hstate => cases hsettling.symm.trans hstate

-- ============================================================================
-- One command
-- ============================================================================

/-- Where nothing opens, an auction stays or moves as the scope says. -/
theorem Market.Steps.auctions_of_closed {now : Nat} {scope : Scope} (hsteps : Market.Steps now scope m m')
    (hopens : ¬ scope.Opens) (r : ReqIdx) :
    m'.auctions r = m.auctions r ∨ ∃ a st, m.auctions r = some a ∧
      m'.auctions r = some (a.withState st) ∧ Moves scope r a.state st := by
  cases hbefore : m.auctions r with
  | none =>
      cases hafter : m'.auctions r with
      | none => exact .inl rfl
      | some a => exact absurd (hsteps.auction_new hbefore hafter).2 hopens
  | some a =>
      obtain ⟨st, hst, rfl | hmoves⟩ := hsteps.auction hbefore
      · exact .inl hst
      · exact .inr ⟨a, st, rfl, hst, hmoves⟩

/-- A scope that neither opens, fills nor resolves. -/
theorem chapter_of_closed {now : Nat} {scope : Scope} (hsteps : Market.Steps now scope m m')
    (hopens : ¬ scope.Opens) (hfilling : scope ≠ .filling r) (hresolving : scope ≠ .resolving r) :
    Chapter r m m' [] := by
  rcases hsteps.auctions_of_closed hopens r with hsame | ⟨a, st, ha, ha', hmoves⟩
  · exact .silent hsame
  · generalize hstate : a.state = before at hmoves
    cases hmoves with
    | settle h => exact absurd h hfilling
    | reject => exact .rejected ha hstate ha'
    | resolve h => exact absurd h hresolving

namespace Engine

variable {e : Engine} {config : Config} {command : Command} {now capacity : Nat} {input : Input}

/-- What a command, on a drained buffer, adds to the story of `r`. -/
abbrev Records (e : Engine) (r : ReqIdx) (answer : Answer) : Prop :=
  Chapter r e.market answer.2.1.market (milestones r answer.2.2.events)

theorem records_refuse {err : EngineError} :
    e.Records r (e.refuse (.withCapacity capacity) err) :=
  .silent rfl

/-- A command that pushes no milestone. -/
theorem records_mute {answer : Answer} (hchapter : Chapter r e.market answer.2.1.market [])
    (hmute : EventBuffer.Adds (fun event => event.milestone = none) (.withCapacity capacity) answer.2.2) :
    e.Records r answer := by
  obtain ⟨new, hevents, hnew⟩ := hmute
  have hnone : milestones r answer.2.2.events = [] := by
    rw [hevents]
    exact milestones_of_mute hnew
  rw [Records, hnone]
  exact hchapter

theorem Sane.records_submitRequest {requester deadline : Nat} {specs : List LegSpec} (h : e.Sane) :
    e.Records r (e.submitRequest requester deadline specs now (.withCapacity capacity)) := by
  have hroom : (∃ err, e.submitRequest requester deadline specs now (.withCapacity capacity) =
      e.refuse (.withCapacity capacity) err) ∨ 0 < capacity := by
    by_cases hcapacity : 0 < capacity
    · exact .inr hcapacity
    · refine .inl ?_
      obtain rfl : capacity = 0 := by omega
      unfold submitRequest
      repeat' split
      all_goals first
        | exact ⟨_, rfl⟩
        | simp [EventBuffer.headroom, EventBuffer.withCapacity] at *
  rcases hroom with ⟨err, heq⟩ | hroom
  · exact heq ▸ records_refuse
  rcases h.submitRequest_cases with ⟨err, heq⟩ | ⟨total, r₀, c, l', hopen, heq⟩
  · exact heq ▸ records_refuse
  obtain ⟨-, hfresh, hbook⟩ := h.healthy.intact.openRequestReserving_book rfl rfl hopen
  have hnone : e.market.auctions r₀ = none := by
    show (e.ledger.book.requests r₀).map Request.auction = none
    rw [hfresh]
    rfl
  have hauctions : l'.market.auctions =
      Function.update e.market.auctions r₀ (some ⟨requester, deadline, .opened, specs⟩) := by
    rw [Ledger.market, hbook, Book.market_reserve, Book.market_setRequest, Ledger.auction_new]
    rfl
  have hpushed : ((EventBuffer.withCapacity capacity).push (.requestOpened r₀ deadline
      (specs.map fun s => ⟨s.contract, s.side, s.size⟩))).events =
        [Auction.announcement r₀ ⟨requester, deadline, .opened, specs⟩] := by
    rw [EventBuffer.push_of_room (b := .withCapacity capacity) hroom]
    rfl
  rw [heq, Records, done, hpushed, milestones, List.filter_cons, Auction.announcement, Event.milestone]
  by_cases hr : r₀ = r
  · subst hr
    simp only [decide_true, if_true, List.filter_nil]
    refine .opened (a := ⟨requester, deadline, .opened, specs⟩) hnone ?_ rfl
    exact (congrFun hauctions r₀).trans (Function.update_self _ _ _)
  · simp only [Option.some.injEq, hr, decide_false, List.filter_nil]
    exact .silent ((congrFun hauctions r).trans (Function.update_of_ne (Ne.symm hr) _ _))

theorem Sane.records_rejectRequest (h : e.Sane) :
    e.Records r (e.rejectRequest r₀ now (.withCapacity capacity)) := by
  refine records_mute ?_ (pushes_rejectRequest.imp fun event => milestone_of_notice)
  rcases h.healthy.rejectRequest (r := r₀) h.config.quotesPerLeg with ⟨err, heq⟩ | ⟨w', heq, hcarried, -⟩
  · rw [heq]
    exact .silent rfl
  · rw [heq]
    exact chapter_of_closed hcarried.steps (by simp [Scope.Opens]) (by simp) (by simp)

theorem Sane.records_submitQuote {maker i price size expiresAt : Nat} (h : e.Sane) :
    e.Records r (e.submitQuote maker r₀ i price size expiresAt now (.withCapacity capacity)) := by
  refine records_mute (.silent ?_) (pushes_submitQuote.imp fun event hpushed => ?_)
  · rcases h.healthy.submitQuote (r := r₀) (i := i) rfl h.config.quotesPerLeg with
      ⟨err, heq⟩ | ⟨standing, contribution, y, leg, w₁, -, hw, hout⟩
    · rw [heq]
      rfl
    · rcases hout with ⟨-, err, arrival, heq⟩ | ⟨-, w', arrival, heq, -, -, -, hsame⟩
      · rw [heq]
        exact congrFun hw.auctions r
      · rw [heq]
        exact congrFun (hsame.trans hw.auctions) r
  · cases event with
    | bestSelectionChanged | quoteRejected | quoteExpired => rfl
    | _ => cases hpushed

theorem Sane.records_acceptRequest {expected : List ExpectedFill} (h : e.Sane) :
    e.Records r (e.acceptRequest r₀ expected now (.withCapacity capacity)) := by
  rcases h.healthy.acceptRequest (r := r₀) rfl h.config.quotesPerLeg with
    ⟨err, heq⟩ | ⟨acc, fills, w', heq, hchecked, haccepted⟩
  · exact heq ▸ records_refuse
  obtain ⟨b, ⟨-, new, hnew, -, hnotices⟩, hevents⟩ := haccepted.events
  obtain ⟨deadline, hsettling⟩ := haccepted.settling
  have htold : w'.2.events = new ++ [Ledger.intentOf r₀ acc] := by
    rw [hevents, hnew]
    rfl
  have hstage : (Ledger.intentOf r₀ acc).milestone = some r₀ := rfl
  rw [heq, Records, done, htold, milestones_notices hnotices hstage]
  split
  next hr =>
    subst hr
    refine .ordered (Ledger.market_auctions hchecked.record) hchecked.opened hsettling ?_
    rw [hchecked.intent, ← hchecked.legs, List.map_map, List.map_map]
    rfl
  next hr =>
    exact chapter_of_closed haccepted.steps (by simp [Scope.Opens]) (by simpa using hr) (by simp)

/-- What a terminal answer makes the engine say: the winners of a failed settlement are told
    first. -/
theorem Sane.told_pollSettlement {nonce : Nonce} {status : TxStatus} {y : Request} {deadline : Nat}
    {w' : Work} (h : e.Sane) (hp : e.market.Sited) (hy : e.ledger.request r₀ = some y)
    (hstate : y.state = .settling nonce deadline) (hresolve : resolveNonce e.ledger nonce = some r₀)
    (hterminal : status.isTerminal = true)
    (heq : e.pollSettlement nonce status now (.withCapacity capacity) = e.done w') :
    ∃ new, (∀ event ∈ new, event.isNotice = true) ∧
      (status = .settled ∧ w'.2.events = new ++ [.requestEscrowed r₀ nonce] ∨
        status = .reverted ∧ w'.2.events = new ++ [.requestSettlementFailed r₀ nonce]) := by
  unfold pollSettlement at heq
  simp only [hresolve, hy, hstate, ne_eq, not_true_eq_false, if_false] at heq
  cases status with
  | unknown => cases hterminal
  | pending => cases hterminal
  | settled =>
      dsimp only at heq
      split at heq
      · cases congrArg Prod.fst heq
      next hroom =>
        refine ⟨[], by simp, .inl ⟨rfl, ?_⟩⟩
        have hcapacity : 0 < capacity := by
          simpa [EventBuffer.headroom, EventBuffer.withCapacity, Nat.pos_iff_ne_zero] using hroom
        have hevents : w'.2.events = ((EventBuffer.withCapacity capacity).push (.requestEscrowed r₀ nonce)).events :=
          (congrArg (fun answer => answer.2.2.events) heq).symm
        rw [hevents, EventBuffer.push_of_room (b := .withCapacity capacity) hcapacity]
        rfl
  | reverted =>
      dsimp only at heq
      split at heq
      · cases congrArg Prod.fst heq
      next hroom =>
        generalize hdischarge : Ledger.CommitPhase.dischargeCommitted e.ledger r₀ = gone at heq
        obtain ⟨visited, l⟩ := gone
        have hfew := h.healthy.length_notices hp (Ledger.market_auctions hy) ⟨nonce, deadline, hstate⟩ hdischarge
        have hcapacity : y.nLegs + 1 ≤ capacity := by
          simpa [EventBuffer.headroom, EventBuffer.withCapacity] using hroom
        refine ⟨(notices l visited).map fun x => .quoteRejected x.1 x.2 .settlementFailed, ?_, .inr ⟨rfl, ?_⟩⟩
        · intro event hevent
          obtain ⟨x, -, rfl⟩ := List.mem_map.mp hevent
          rfl
        · have hpoured : (e.failRequest r₀ nonce (.withCapacity capacity)).2 =
              ((notices l visited).map (fun x : QuoteIdx × Nat => Event.quoteRejected x.1 x.2 .settlementFailed) ++
                [Event.requestSettlementFailed r₀ nonce]).foldl EventBuffer.push (.withCapacity capacity) := by
            simp only [failRequest, hdischarge, List.foldl_append, List.foldl_map]
            rfl
          have hevents : w'.2.events = (e.failRequest r₀ nonce (.withCapacity capacity)).2.events :=
            (congrArg (fun answer => answer.2.2.events) heq).symm
          rw [hevents, hpoured, EventBuffer.foldl_push_of_room]
          · rfl
          · have hlen : y.auction.legs.length = y.nLegs := by simp [Request.nLegs, Request.auction]
            rw [List.length_append, List.length_map, List.length_singleton]
            show 0 + _ ≤ capacity
            omega

theorem mute_pollSettlement {nonce : Nonce} {status : TxStatus} {events : EventBuffer}
    (hopen : status.isTerminal = false) :
    EventBuffer.Adds (fun event => event.milestone = none) events
      (e.pollSettlement nonce status now events).2.2 := by
  unfold pollSettlement
  cases status with
  | settled => cases hopen
  | reverted => cases hopen
  | _ =>
      repeat' split
      all_goals first
        | contradiction
        | exact .refl _
        | exact EventBuffer.adds_push rfl

theorem Sane.records_pollSettlement {nonce : Nonce} {status : TxStatus} (h : e.Sane)
    (hp : e.market.Sited) :
    e.Records r (e.pollSettlement nonce status now (.withCapacity capacity)) := by
  rcases h.healthy.pollSettlement with ⟨err, heq⟩ | ⟨b, heq, -, hopen⟩ |
    ⟨r₀, y, deadline, w', hy, hstate, hnonce, hresolve, hterminal, heq, hresolves⟩
  · exact heq ▸ records_refuse
  · refine records_mute (.silent ?_) (mute_pollSettlement hopen)
    rw [heq]
  · obtain ⟨new, hnotices, htold⟩ := h.told_pollSettlement hp hy hstate hresolve hterminal heq
    subst hnonce
    rw [heq, Records, done]
    have ha := Ledger.market_auctions hy
    rcases htold with ⟨rfl, hevents⟩ | ⟨rfl, hevents⟩
    · have hstage : (Event.requestEscrowed r₀ (.of r₀)).milestone = some r₀ := rfl
      rw [hevents, milestones_notices hnotices hstage]
      split
      next hr =>
        subst hr
        exact .escrowed ha hstate hresolves.resolved
      next hr =>
        exact chapter_of_closed hresolves.carried.steps (by simp [Scope.Opens]) (by simp) (by simpa using hr)
    · have hstage : (Event.requestSettlementFailed r₀ (.of r₀)).milestone = some r₀ := rfl
      rw [hevents, milestones_notices hnotices hstage]
      split
      next hr =>
        subst hr
        exact .failed ha hstate hresolves.resolved
      next hr =>
        exact chapter_of_closed hresolves.carried.steps (by simp [Scope.Opens]) (by simp) (by simpa using hr)

/-- Every command, on a normalised engine. -/
theorem Sane.records_perform (h : e.Sane) (hp : e.market.Sited) (command : Command) (now capacity : Nat)
    (r : ReqIdx) : e.Records r (e.perform command now (.withCapacity capacity)) := by
  have hmute : (∀ event, command.pushes event = true → event.milestone = none) →
      EventBuffer.Adds (fun event => event.milestone = none) (.withCapacity capacity)
        (e.perform command now (.withCapacity capacity)).2.2 := fun himp => pushes_perform.imp himp
  have hidle : (∀ event, command.pushes event = true → event.milestone = none) →
      (e.perform command now (.withCapacity capacity)).2.1.market = e.market →
        e.Records r (e.perform command now (.withCapacity capacity)) := fun himp hmarket =>
    records_mute (.silent (by rw [hmarket])) (hmute himp)
  cases command with
  | creditAccount account free =>
      refine records_mute ?_ (hmute (by simp [Command.pushes]))
      have hperforms := h.performs (.creditAccount account free) now (.withCapacity capacity)
      generalize e.perform (.creditAccount account free) now (.withCapacity capacity) = answer at hperforms
      cases hperforms with
      | refused => exact .silent rfl
      | traded hfor _ hcarried =>
          obtain rfl := hfor
          exact chapter_of_closed hcarried.steps (by simp [Scope.Opens]) (by simp) (by simp)
  | registerContract contract eventDate =>
      refine hidle (by simp [Command.pushes]) ?_
      have hsame := market_registerContract e.ledger contract eventDate
      rw [Engine.perform]
      split
      next heq => rw [heq] at hsame; exact hsame
      next heq => rw [heq] at hsame; exact hsame
  | submitRequest requester deadline legs => exact h.records_submitRequest
  | rejectRequest r₀ => exact h.records_rejectRequest
  | submitQuote maker r₀ leg price size expiresAt => exact h.records_submitQuote
  | cancelQuote q =>
      refine hidle (by simp [Command.pushes]) ?_
      rw [Engine.perform]
      split <;> rfl
  | acceptRequest r₀ expected => exact h.records_acceptRequest
  | pollSettlement nonce status => exact h.records_pollSettlement hp
  | reportOracleStatus contract status =>
      refine hidle (fun event hpushed => ?_) ?_
      · cases status with
        | final outcome =>
            have heq : event = .contractResolved contract outcome := of_decide_eq_true hpushed
            rw [heq]
            rfl
        | _ => cases hpushed
      · rw [Engine.perform]
        rcases e.reportOracleStatus_cases contract status (.withCapacity capacity) with
          ⟨err, heq⟩ | ⟨record, -, -, heq⟩
        · rw [heq]
          rfl
        · rw [heq]
          rfl
  | settleEscrow escrow contract =>
      refine hidle (fun event hpushed => ?_) ?_
      · cases event with
        | settleIntent => rfl
        | _ => cases hpushed
      · rw [Engine.perform]
        unfold settleEscrow
        repeat' split
        all_goals rfl

theorem Reachable.records (h : Reachable config e) (input : Input) (r : ReqIdx) :
    Chapter r e.market (e.step input).market (milestones r (e.emits input)) := by
  have hsane := sane_of_reachable h
  have hn := hsane.normalised input.command input.now
  have hrecords := hn.sane.records_perform (hn.sited h.sited) input.command input.now input.capacity r
  exact hrecords.congr hn.auctions

-- ============================================================================
-- Runs
-- ============================================================================

theorem Reachable.story (h : Reachable config e) (inputs : List Input) {events : List Event}
    (hstory : Story r (e.market.auctions r) events) :
    Story r ((e.run inputs).market.auctions r) (events ++ milestones r (e.emitted inputs)) := by
  induction inputs generalizing e events with
  | nil =>
      rw [emitted, Engine.trace, List.flatMap_nil, milestones, List.filter_nil, List.append_nil]
      exact hstory
  | cons input inputs ih =>
      have hnext := ih (h.step input) ((h.records input r).story hstory)
      rw [emitted, Engine.trace, List.flatMap_cons, milestones_append, ← List.append_assoc]
      exact hnext

/-- In every run, at whatever instants and with whatever room in the buffers, the stages the
    events tell of a request are the ones it went through: none if it is not stored, and in
    order its opening with what it asked for, the intent to settle just these legs, and the
    end of that settlement. -/
theorem milestones_exact (h : Engine.new config = .ok e) (inputs : List Input) (r : ReqIdx) :
    Story r (((e.run inputs).ledger.request r).map Request.auction) (milestones r (e.emitted inputs)) := by
  have hnone : e.market.auctions r = none := by
    obtain ⟨-, rfl⟩ := new_eq_ok h
    exact congrFun (market_new config).2.1 r
  have hstart : Story r (e.market.auctions r) [] := hnone ▸ .unknown
  have hstory := (Reachable.new h).story inputs hstart
  rw [List.nil_append] at hstory
  have hstored : (e.run inputs).market.auctions r = ((e.run inputs).ledger.request r).map Request.auction := by
    show (((e.run inputs).ledger.request r).map Request.unlinked).map Request.auction = _
    rw [Option.map_map]
    rfl
  rw [← hstored]
  exact hstory

/-- A trade accepted and then settled by custody. -/
def concluded : List Input :=
  standingInputs ++ [⟨.acceptRequest ⟨0, 0⟩ [⟨0, 600000⟩], 5, 8⟩,
    ⟨.pollSettlement ⟨0, 0⟩ .settled, 6, 8⟩]

theorem milestones_exact_concluded : Story ⟨0, 0⟩
    (((opening.run concluded).ledger.request ⟨0, 0⟩).map Request.auction)
      (milestones ⟨0, 0⟩ (opening.emitted concluded)) := by
  have hnew : Engine.new Config.small = .ok opening := rfl
  exact milestones_exact hnew concluded ⟨0, 0⟩

end Engine

end RfqSettlement
