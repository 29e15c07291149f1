/-
  RfqSettlement.Core.Runs

  Whole commands and whole runs of the engine.

  `Engine.Sane` is the engine's invariant.  `Sane.apply` says what any command
  does to it, in any state and at any instant: the engine stays sane, and its
  market moves by steps of one scope, which the command fixes
  (`Scope.For`).  `Engine.Reachable` are the states a validated configuration
  reaches, at any instants; `Engine.ReachableAt` those it reaches at instants
  that never go back.
-/

import RfqSettlement.Core.Settling
import RfqSettlement.Core.LedgerIntegrity

namespace RfqSettlement

/-- The scopes a command may take its market steps in. -/
def Scope.For (m : Market) : Command → Scope → Prop
  | .creditAccount account free, s => s = .crediting account free
  | .rejectRequest r, s => s = .rejecting r
  | .acceptRequest r _, s => s = .filling r
  | .submitQuote maker r leg price _ _, s => s = .calm ∨ ∃ q o, s = .replacing q ∧
      m.offers q = some o ∧ o.maker = maker ∧ o.request = r ∧ o.leg = leg ∧ price ≤ o.price
  | .pollSettlement nonce status, s =>
      s = .calm ∨ ∃ r, s = .resolving r ∧ Nonce.of r = nonce ∧ status.isTerminal = true
  | _, s => s = .calm

/-- A scope that neither accepts a request nor resolves one. -/
def Scope.Calm (scope : Scope) : Prop := ∀ r, scope ≠ .filling r ∧ scope ≠ .resolving r

/-- Every command has a scope. -/
theorem Scope.exists_for (m : Market) (command : Command) : ∃ scope : Scope, scope.For m command := by
  cases command with
  | submitQuote => exact ⟨_, .inl rfl⟩
  | pollSettlement => exact ⟨_, .inl rfl⟩
  | _ => exact ⟨_, rfl⟩

namespace Engine

open Ledger (Sized Healthy Carried QuoteChecked Checked Accepted Resolves)

def market (e : Engine) : Market := e.ledger.market

/-- What holds of the engine before and after every command. -/
structure Sane (e : Engine) : Prop where
  config : e.config.Valid
  healthy : e.ledger.Healthy e.config.maxQuotesPerLeg none
  sound : e.ledger.sound = true

variable {e : Engine} {command : Command} {now : Nat} {events : EventBuffer} {scope : Scope}
  {accounts : List Nat}

-- ============================================================================
-- Construction
-- ============================================================================

theorem quote_new {config : Config} (q : QuoteIdx) : (Ledger.new config).quote q = none :=
  Slab.get_withCapacity _

theorem request_new {config : Config} (r : ReqIdx) : (Ledger.new config).request r = none :=
  Slab.get_withCapacity _

theorem reservation_new {config : Config} (c : ResIdx) : (Ledger.new config).reservation c = none :=
  Slab.get_withCapacity _

theorem market_new (config : Config) :
    (Ledger.new config).market.claims = (fun _ => none) ∧
      (Ledger.new config).market.auctions = (fun _ => none) ∧
      (Ledger.new config).market.offers = (fun _ => none) := by
  refine ⟨funext fun c => ?_, funext fun r => ?_, funext fun q => ?_⟩
  · show ((Ledger.new config).reservation c).map Reservation.toClaim = none
    rw [reservation_new]
    rfl
  · show (((Ledger.new config).request r).map Request.unlinked).map Request.auction = none
    rw [request_new]
    rfl
  · show ((Ledger.new config).quote q).map Quote.offer = none
    rw [quote_new]
    rfl

/-- Nothing is mirrored at first. -/
theorem totals_new {config : Config} {a : Nat} {t : Totals}
    (ht : (Ledger.new config).market.totals a = some t) : t = ⟨0, 0, 0⟩ := by
  have ht : ((Ledger.new config).account a).map MirroredBalance.totals = some t := ht
  obtain ⟨m, hm, rfl⟩ := Option.map_eq_some_iff.mp ht
  rw [Ledger.account, Ledger.new, List.getElem?_replicate] at hm
  split at hm
  · obtain rfl := Option.some.inj hm
    rfl
  · cases hm

theorem healthy_new {config : Config} {max : Nat} (h : config.Storable) :
    (Ledger.new config).Healthy max none := by
  obtain ⟨hclaims, hauctions, hoffers⟩ := market_new config
  refine ⟨Ledger.intact_new h, ?_, ?_⟩
  · intro r x hx
    have hx : ((Ledger.new config).request r).map Request.unlinked = some x := hx
    rw [request_new] at hx
    cases hx
  · refine ⟨?_, ?_, ?_, ?_, ?_, ?_, ?_, ?_, ?_⟩ <;> simp [hclaims, hauctions, hoffers]

theorem new_eq_ok {config : Config} (h : Engine.new config = .ok e) :
    config.Valid ∧ e = ⟨config, Ledger.new config, 0⟩ := by
  unfold Engine.new at h
  split at h
  · cases h
  next hvalid =>
    rw [Except.ok.injEq] at h
    exact ⟨Config.valid_of_validate hvalid, h.symm⟩

theorem sane_new {config : Config} (h : Engine.new config = .ok e) : e.Sane := by
  obtain ⟨hvalid, rfl⟩ := new_eq_ok h
  exact ⟨hvalid, healthy_new hvalid.storable, rfl⟩

-- ============================================================================
-- Normalisation
-- ============================================================================

/-- `n` is `e` with expired claims reclaimed and nothing else changed. -/
structure Normalised (now : Nat) (e n : Engine) : Prop where
  sane : n.Sane
  config : n.config = e.config
  contracts : n.ledger.contracts = e.ledger.contracts
  steps : ∀ scope, Market.Steps now scope e.market n.market
  auctions : n.market.auctions = e.market.auctions
  offers : n.market.offers = e.market.offers

theorem Normalised.refl (h : e.Sane) : Normalised now e e :=
  ⟨h, rfl, rfl, fun _ => .refl _, rfl, rfl⟩

theorem Normalised.trans {e' e'' : Engine} (h : Normalised now e e') (h' : Normalised now e' e'') :
    Normalised now e e'' :=
  ⟨h'.sane, h'.config.trans h.config, h'.contracts.trans h.contracts,
    fun scope => (h.steps scope).trans (h'.steps scope), h'.auctions.trans h.auctions,
    h'.offers.trans h.offers⟩

theorem records_of_expired {b b' : Book} {account : Nat} (h : Book.Expired account now b b') :
    b'.market.auctions = b.market.auctions ∧ b'.market.offers = b.market.offers := by
  induction h with
  | refl => exact ⟨rfl, rfl⟩
  | step hk ha hs he rest ih =>
      rw [ih.1, ih.2, Book.market_free]
      exact ⟨rfl, rfl⟩

theorem Sane.normalise (now : Nat) (h : e.Sane) (account : Nat) : Normalised now e (e.normalise account now) := by
  unfold Engine.normalise
  cases ha : e.ledger.account account with
  | none =>
      rw [Ledger.releaseExpired_error ha]
      exact .refl h
  | some m =>
      obtain ⟨-, hswept⟩ := h.healthy.intact.releaseExpired account _ (by simp [ha])
      obtain ⟨hauctions, hoffers⟩ := records_of_expired hswept.book
      refine ⟨⟨h.config, ⟨hswept.intact, h.healthy.chained.expired hswept.book, ?_⟩,
        hswept.kept.sound.trans h.sound⟩, rfl, hswept.kept.contracts, fun _ => hswept.book.steps,
        hauctions, hoffers⟩
      exact h.healthy.coherent.steps_of
        (show Market.Steps now .calm _ _ from hswept.book.steps) rfl

theorem Sane.normaliseAll (h : e.Sane) (accounts : List Nat) :
    Normalised now e (e.normaliseAll accounts now) := by
  unfold Engine.normaliseAll
  induction accounts generalizing e with
  | nil => exact .refl h
  | cons account accounts ih =>
      have h₁ := h.normalise now account
      exact h₁.trans (ih h₁.sane)

-- ============================================================================
-- Commands
-- ============================================================================

/-- What one command does, carried out or refused. -/
structure Advances (now : Nat) (scope : Scope) (e e' : Engine) : Prop where
  sane : e'.Sane
  config : e'.config = e.config
  steps : Market.Steps now scope e.market e'.market

theorem Advances.refl (h : e.Sane) : Advances now scope e e := ⟨h, rfl, .refl _⟩

theorem Sane.carried {w' : Work} {arrival : Nat} (h : e.Sane)
    (hc : Carried e.config.maxQuotesPerLeg now scope (e.ledger, events) w') :
    Advances now scope e { e with ledger := w'.1, nextArrival := arrival } :=
  ⟨⟨h.config, hc.healthy, hc.sized.sound.trans h.sound⟩, rfl, hc.steps⟩

/-- Writing `free` of the mirror. -/
theorem Sane.applyMirrorUpdate (h : e.Sane) (account free : Nat) :
    Carried e.config.maxQuotesPerLeg now (.crediting account free) (e.ledger, events)
      (e.ledger.modifyAccount account fun e => { e with free }, events) := by
  have hbook : (e.ledger.modifyAccount account fun e => { e with free }).book =
      e.ledger.book.modifyTotals account fun t => { t with free } :=
    Ledger.book_modifyAccount _ fun _ => rfl
  have hstep : Market.Step now (.crediting account free) e.ledger.market
      (e.ledger.modifyAccount account fun e => { e with free }).market := by
    show Market.Step now _ _ (Ledger.book _).market
    rw [hbook]
    exact .mirror rfl
  refine ⟨⟨⟨h.healthy.intact.wired.modifyAccount _ fun _ => rfl, ?_⟩, ?_, ?_⟩,
    ⟨rfl, rfl, rfl, rfl, rfl⟩, .one hstep, .refl _⟩
  · show Book.Balanced (Ledger.book _)
    rw [hbook]
    exact h.healthy.intact.balanced.modifyTotals fun t => ⟨rfl, rfl⟩
  · show Book.Chained _ none (Ledger.book _)
    rw [hbook]
    exact h.healthy.chained.of_same rfl rfl
  · exact h.healthy.coherent.step_of hstep rfl

/-- Writing the contract table. -/
theorem Sane.setContracts {contracts : List (Option Contract)} (h : e.Sane) :
    Advances now scope e { e with ledger := { e.ledger with contracts } } :=
  ⟨⟨h.config, ⟨⟨⟨h.healthy.intact.wired.reservations, h.healthy.intact.wired.requests,
    h.healthy.intact.wired.quotes, h.healthy.intact.wired.threads⟩, h.healthy.intact.balanced⟩,
    h.healthy.chained, h.healthy.coherent⟩, h.sound⟩, rfl, .refl _⟩

theorem registerContract_eq {l : Ledger} {contract eventDate : Nat}
    (hnew : l.contracts[contract]? = some none) :
    (l.registerContract contract eventDate).2 =
      { l with contracts := l.contracts.set contract (some (Contract.new eventDate)) } := by
  simp only [Ledger.registerContract, hnew]

/-- The scope a submission withdraws its standing quote in is one of its own. -/
theorem Sane.replacementScope_for {maker i price size expiresAt amount : Nat} {r : ReqIdx}
    {standing : Option QuoteIdx} {y : Request} {leg : Leg} (h : e.Sane)
    (hc : QuoteChecked e maker r i price size expiresAt now events standing amount y leg) :
    (Ledger.replacementScope standing).For e.market
      (.submitQuote maker r i price size expiresAt) := by
  cases hstanding : standing with
  | none => exact .inl rfl
  | some q =>
      obtain ⟨x, hx, hmaker, ho⟩ := h.healthy.standing (q := q) hc.request
        hc.opened hc.found (by rw [← hc.located, hstanding])
      exact .inr ⟨q, x.offer, rfl, ho.offer, hmaker, ho.request, ho.leg,
        hc.better q x hstanding hx⟩

-- ============================================================================
-- Outcomes
-- ============================================================================

/-- What a command can come to on a normalised engine, with all that it does: it
    is refused; it trades, within a scope that neither accepts nor resolves; it
    withdraws a quote and is refused all the same; it writes the contract table;
    it accepts; it resolves a settlement; or it pays an escrow. -/
inductive Performs (e : Engine) (now : Nat) (events : EventBuffer) : Command → Answer → Prop where
  | refused {command : Command} {err : EngineError} {arrival : Nat} :
      Performs e now events command (Engine.refuse { e with nextArrival := arrival } events err)
  | traded {command : Command} {scope : Scope} {w' : Work} {arrival : Nat}
      (hfor : scope.For e.market command) (hcalm : scope.Calm)
      (hcarried : Carried e.config.maxQuotesPerLeg now scope (e.ledger, events) w') :
      Performs e now events command (Engine.done { e with nextArrival := arrival } w')
  | withdrawn {maker i price size expiresAt arrival : Nat} {r : ReqIdx} {q : QuoteIdx}
      {err : EngineError} {w' : Work}
      (hfor : (Scope.replacing q).For e.market (.submitQuote maker r i price size expiresAt))
      (hcarried : Carried e.config.maxQuotesPerLeg now (.replacing q) (e.ledger, events) w') :
      Performs e now events (.submitQuote maker r i price size expiresAt)
        (Engine.refuse { e with ledger := w'.1, nextArrival := arrival } w'.2 err)
  | registered {contract eventDate : Nat} (hnew : e.ledger.contracts[contract]? = some none) :
      Performs e now events (.registerContract contract eventDate)
        (e.done ((e.ledger.registerContract contract eventDate).2, events))
  | reported {contract : Nat} {status : OracleStatus} {record : Contract}
      (hrecord : e.ledger.contract contract = some record) (hmay : record.mayReport status = true) :
      Performs e now events (.reportOracleStatus contract status)
        (e.done (e.ledger.setOracleStatus contract status,
          (resolution contract status).foldl EventBuffer.push events))
  | accepted {r : ReqIdx} {expected : List ExpectedFill} {acc : Acceptance} {fills : List Fill}
      {w' : Work} (hchecked : Checked e r now events fills acc)
      (haccepted : Accepted e.config.maxQuotesPerLeg r now acc.record.auction acc.total
        (Ledger.intentOf r acc) fills (e.ledger, events) w') :
      Performs e now events (.acceptRequest r expected) (e.done w')
  | resolved {nonce : Nonce} {status : TxStatus} {r : ReqIdx} {y : Request} {deadline : Nat}
      {w' : Work} (hy : e.ledger.request r = some y) (hsettling : y.state = .settling nonce deadline)
      (hnonce : Nonce.of r = nonce) (hterminal : status.isTerminal = true)
      (hresolves : Resolves (e.ledger, events) e.config.maxQuotesPerLeg now r y.auction
        (Ledger.answered status) w') :
      Performs e now events (.pollSettlement nonce status) (e.done w')
  | paid {escrow contract : Nat} {record : Contract} {outcome : Outcome}
      (hrecord : e.ledger.contract contract = some record)
      (hout : record.outcome now e.config.stallGrace = some outcome)
      (hroom : events.headroom 1 = true) :
      Performs e now events (.settleEscrow escrow contract)
        (.ok (), e, events.push (.settleIntent escrow contract outcome))

theorem Sane.unchanged {scope : Scope} (h : e.Sane) :
    Carried e.config.maxQuotesPerLeg now scope (e.ledger, events) (e.ledger, events) :=
  ⟨h.healthy, Sized.refl _, .refl _, .refl _⟩

theorem Sane.performs_creditAccount {account free : Nat} (h : e.Sane) :
    Performs e now events (.creditAccount account free)
      (e.perform (.creditAccount account free) now events) := by
  simp only [Engine.perform, Ledger.applyMirrorUpdate]
  cases hm : e.ledger.account account with
  | none => exact .refused
  | some m =>
      exact .traded rfl
        (by simp [Scope.Calm]) (h.applyMirrorUpdate account free)

theorem Sane.performs_registerContract {contract eventDate : Nat} (h : e.Sane) :
    Performs e now events (.registerContract contract eventDate)
      (e.perform (.registerContract contract eventDate) now events) := by
  simp only [Engine.perform, Ledger.registerContract]
  cases hc : e.ledger.contracts[contract]? with
  | none => exact .refused
  | some entry =>
      cases entry with
      | none =>
          have hnew : Performs e now events (.registerContract contract eventDate) _ := .registered hc
          simpa only [Ledger.registerContract, hc] using hnew
      | some existing =>
          by_cases hsame : existing.eventDate = eventDate
          · simp only [hsame, if_true]
            exact .traded rfl (by simp [Scope.Calm])
              h.unchanged
          · simp only [hsame, if_false]
            exact .refused

theorem Sane.performs_submitQuote {maker i price size expiresAt : Nat} {r : ReqIdx} (h : e.Sane) :
    Performs e now events (.submitQuote maker r i price size expiresAt)
      (e.submitQuote maker r i price size expiresAt now events) := by
  rcases h.healthy.submitQuote (r := r) (i := i)
    rfl
    h.config.quotesPerLeg with
    ⟨err, heq⟩ | ⟨standing, contribution, y, leg', w₁, hc, hw, hcases⟩
  · exact heq ▸ .refused
  have hscope := h.replacementScope_for hc
  have hcalm : (Ledger.replacementScope standing).Calm := by
    cases standing <;> simp [Scope.Calm, Ledger.replacementScope]
  rcases hcases with ⟨-, err, arrival, heq⟩ | ⟨-, w', arrival, heq, hcarried, -⟩
  · rw [heq]
    cases standing with
    | none =>
        obtain rfl := hw.untouched rfl
        exact .refused
    | some q => exact .withdrawn hscope hw.carried
  · rw [heq]
    exact .traded hscope hcalm (hw.carried.trans hcarried)

/-- Every command comes to one of its outcomes. -/
theorem Sane.performs (command : Command) (now : Nat) (events : EventBuffer) (h : e.Sane) :
    Performs e now events command (e.perform command now events) := by
  have hmax : e.config.maxQuotesPerLeg ≤ MAX_QUOTES_PER_LEG := h.config.quotesPerLeg
  cases command with
  | creditAccount account free => exact h.performs_creditAccount
  | registerContract contract eventDate => exact h.performs_registerContract
  | submitRequest requester deadline legs =>
      rw [Engine.perform]
      rcases h.healthy.submitRequest h.config.legs with ⟨err, heq⟩ | ⟨w', heq, hc, -⟩
      · exact heq ▸ .refused
      · rw [heq]
        exact .traded rfl (by simp [Scope.Calm]) hc
  | rejectRequest r =>
      rw [Engine.perform]
      rcases h.healthy.rejectRequest (r := r) hmax with ⟨err, heq⟩ | ⟨w', heq, hc, -⟩
      · exact heq ▸ .refused
      · rw [heq]
        exact .traded rfl (by simp [Scope.Calm]) hc
  | submitQuote maker r leg price size expiresAt => exact h.performs_submitQuote
  | cancelQuote q =>
      rw [Engine.perform]
      split <;> exact .refused
  | acceptRequest r expected =>
      rw [Engine.perform]
      rcases h.healthy.acceptRequest (r := r) rfl hmax with
        ⟨err, heq⟩ | ⟨acc, fills, w', heq, hchecked, hacc⟩
      · exact heq ▸ .refused
      · rw [heq]
        exact .accepted hchecked hacc
  | pollSettlement nonce status =>
      rw [Engine.perform]
      rcases h.healthy.pollSettlement with
        ⟨err, heq⟩ | ⟨b, heq, hquiet, -⟩ |
          ⟨r, y, d, w', hy, hsettling, hnonce, -, hterm, heq, hres⟩
      · exact heq ▸ .refused
      · rw [heq]
        have hcarried : Carried e.config.maxQuotesPerLeg now .calm (e.ledger, events) (e.ledger, b) :=
          ⟨h.healthy, Sized.refl _, .refl _, hquiet⟩
        have hfor : Scope.calm.For e.market (.pollSettlement nonce status) := .inl rfl
        exact .traded hfor (by simp [Scope.Calm]) hcarried
      · rw [heq]
        exact .resolved hy hsettling hnonce hterm hres
  | reportOracleStatus contract status =>
      rw [Engine.perform]
      rcases e.reportOracleStatus_cases contract status events with
        ⟨err, heq⟩ | ⟨record, hrecord, hmay, heq⟩
      · exact heq ▸ .refused
      · exact heq ▸ .reported hrecord hmay
  | settleEscrow escrow contract =>
      rw [Engine.perform]
      unfold Engine.settleEscrow
      split
      · exact .refused
      next record hrecord =>
      split
      · exact .refused
      next outcome hout =>
      split
      · exact .refused
      next hroom => exact .paid hrecord hout (by simpa using hroom)

/-- Every outcome keeps the engine sane, by market steps of a scope of the
    command. -/
theorem Performs.advances {answer : Answer} (h : e.Sane)
    (hp : Performs e now events command answer) :
    ∃ scope, scope.For e.market command ∧ Advances now scope e answer.2.1 := by
  cases hp with
  | refused =>
      obtain ⟨scope, hfor⟩ := Scope.exists_for e.market command
      exact ⟨scope, hfor, ⟨h.config, h.healthy, h.sound⟩, rfl, .refl _⟩
  | traded hfor _ hcarried => exact ⟨_, hfor, h.carried hcarried⟩
  | withdrawn hfor hcarried => exact ⟨_, hfor, h.carried hcarried⟩
  | @registered contract eventDate =>
      refine ⟨_, rfl, ?_⟩
      rw [registerContract_eq ‹_›]
      exact h.setContracts
  | reported => exact ⟨_, rfl, h.setContracts⟩
  | accepted _ hacc =>
      exact ⟨_, rfl, ⟨h.config, hacc.healthy, hacc.sized.sound.trans h.sound⟩, rfl, hacc.steps⟩
  | resolved _ _ hnonce hterminal hres =>
      exact ⟨.resolving _, .inr ⟨_, rfl, hnonce, hterminal⟩, h.carried hres.carried⟩
  | paid => exact ⟨_, rfl, .refl h⟩

/-- Every command, on a normalised engine. -/
theorem Sane.perform (h : e.Sane) :
    ∃ scope, scope.For e.market command ∧
      Advances now scope e (e.perform command now events).2.1 :=
  (h.performs command now events).advances h

/-- The same, of a command given by name. -/
theorem Sane.advances (h : e.Sane) (command : Command) (now : Nat) (events : EventBuffer) :
    ∃ scope, scope.For e.market command ∧
      Advances now scope e (e.perform command now events).2.1 := h.perform

theorem Sane.normalised (h : e.Sane) (command : Command) (now : Nat) :
    Normalised now e (e.normaliseAll (e.touchedAccounts command) now) :=
  h.normaliseAll _

/-- Every command. -/
theorem Sane.apply (h : e.Sane) (command : Command) (now : Nat) (events : EventBuffer) :
    ∃ scope, scope.For e.market command ∧ Advances now scope e (e.apply command now events).2.1 := by
  have hn := h.normalised command now
  obtain ⟨scope, hfor, hadv⟩ := hn.sane.perform
  refine ⟨scope, ?_, hadv.sane, hadv.config.trans hn.config, (hn.steps scope).trans hadv.steps⟩
  cases command <;> try exact hfor
  rcases hfor with hcalm | ⟨q, o, hs, ho, hrest⟩
  · exact .inl hcalm
  · exact .inr ⟨q, o, hs, by rw [← hn.offers]; exact ho, hrest⟩

-- ============================================================================
-- Runs
-- ============================================================================

/-- A command, the instant it is applied at, and the room of the buffer it is
    handed. -/
structure Input where
  command : Command
  now : Nat
  capacity : Nat
deriving DecidableEq, Repr

/-- The answer to one input, on a drained buffer. -/
def answer (e : Engine) (input : Input) : Answer :=
  e.apply input.command input.now (.withCapacity input.capacity)

def step (e : Engine) (input : Input) : Engine := (e.answer input).2.1

/-- The events one input leaves in its buffer. -/
def emits (e : Engine) (input : Input) : List Event := (e.answer input).2.2.events

def run (e : Engine) (inputs : List Input) : Engine := inputs.foldl step e

theorem Sane.sane_step (h : e.Sane) (input : Input) : (e.step input).Sane := by
  obtain ⟨_, -, hadv⟩ := h.apply input.command input.now (.withCapacity input.capacity)
  exact hadv.sane

/-- The engines a validated configuration reaches, whatever the instants.  Every
    command is handed a drained buffer. -/
inductive Reachable (config : Config) : Engine → Prop where
  | new {e : Engine} (h : Engine.new config = .ok e) : Reachable config e
  | step {e : Engine} (h : Reachable config e) (input : Input) : Reachable config (e.step input)

theorem sane_of_reachable {config : Config} (h : Reachable config e) : e.Sane := by
  induction h with
  | new h => exact sane_new h
  | step _ input ih => exact ih.sane_step input

theorem Reachable.run {config : Config} (h : Reachable config e) (inputs : List Input) :
    Reachable config (e.run inputs) := by
  induction inputs generalizing e with
  | nil => exact h
  | cons input inputs ih => exact ih (h.step input)

/-- The engines reached by commands whose instants never go back, with the last
    instant. -/
inductive ReachableAt (config : Config) : Nat → Engine → Prop where
  | new {e : Engine} (now : Nat) (h : Engine.new config = .ok e) : ReachableAt config now e
  | step {e : Engine} {now : Nat} (h : ReachableAt config now e) (input : Input)
      (hnow : now ≤ input.now) : ReachableAt config input.now (e.step input)

theorem ReachableAt.reachable {config : Config} (h : ReachableAt config now e) :
    Reachable config e := by
  induction h with
  | new now h => exact .new h
  | step _ input _ ih => exact ih.step input

theorem ReachableAt.sane {config : Config} (h : ReachableAt config now e) : e.Sane :=
  sane_of_reachable h.reachable

/-- The instant a run has come to. -/
def lastInstant : Nat → List Input → Nat
  | now, [] => now
  | _, input :: inputs => lastInstant input.now inputs

/-- Inputs at instants that never go back, each meeting `ok` on the engine it
    finds. -/
def Paced (ok : Engine → Input → Prop) : Nat → Engine → List Input → Prop
  | _, _, [] => True
  | now, e, input :: inputs =>
    now ≤ input.now ∧ ok e input ∧ Paced ok input.now (e.step input) inputs

theorem Paced.le_lastInstant {ok : Engine → Input → Prop} {inputs : List Input}
    (h : Paced ok now e inputs) : now ≤ lastInstant now inputs := by
  induction inputs generalizing now e with
  | nil => exact Nat.le_refl _
  | cons input inputs ih => exact h.1.trans (ih h.2.2)

theorem ReachableAt.run {config : Config} {ok : Engine → Input → Prop} (inputs : List Input)
    (h : ReachableAt config now e) (hpaced : Paced ok now e inputs) :
    ReachableAt config (lastInstant now inputs) (e.run inputs) := by
  induction inputs generalizing now e with
  | nil => exact h
  | cons input inputs ih => exact ih (h.step input hpaced.1) hpaced.2.2

/-- While instants never go back, nothing live has lost its claim. -/
theorem ReachableAt.backed {config : Config} (h : ReachableAt config now e) : e.market.Backed now := by
  induction h with
  | new now h =>
      obtain ⟨-, rfl⟩ := new_eq_ok h
      obtain ⟨-, hauctions, hoffers⟩ := market_new config
      exact ⟨by simp [Engine.market, hoffers], by simp [Engine.market, hauctions]⟩
  | @step e now h input hnow ih =>
      obtain ⟨scope, -, hadv⟩ := h.sane.apply input.command input.now (.withCapacity input.capacity)
      have hc : e.market.Coherent scope.filled := by
        cases scope with
        | filling r => exact h.sane.healthy.coherent.fill
        | _ => exact h.sane.healthy.coherent
      exact (ih.mono hnow).steps hc hadv.steps

-- ============================================================================
-- A basket of two legs with competing makers
-- ============================================================================

/-- Three makers quote the first leg of a basket and two of them the second; the
    best quote of the first leg replaced a dearer one of the same maker. -/
def crowdedInputs : List Input :=
  [⟨.creditAccount 0 4000000, 0, 8⟩, ⟨.creditAccount 1 3000000, 0, 8⟩,
    ⟨.creditAccount 2 2000000, 0, 8⟩, ⟨.creditAccount 3 900000, 0, 8⟩,
    ⟨.registerContract 0 1000, 0, 8⟩, ⟨.registerContract 1 1000, 0, 8⟩,
    ⟨.submitRequest 0 50 [⟨0, .yes, 2, 900000⟩, ⟨1, .no, 1, 800000⟩], 1, 8⟩,
    ⟨.submitQuote 1 ⟨0, 0⟩ 0 600000 2 40, 2, 8⟩, ⟨.submitQuote 2 ⟨0, 0⟩ 0 550000 2 45, 2, 8⟩,
    ⟨.submitQuote 3 ⟨0, 0⟩ 0 580000 2 30, 3, 8⟩, ⟨.submitQuote 1 ⟨0, 0⟩ 1 500000 1 42, 3, 8⟩,
    ⟨.submitQuote 2 ⟨0, 0⟩ 1 500000 1 44, 3, 8⟩, ⟨.submitQuote 1 ⟨0, 0⟩ 0 540000 2 41, 4, 8⟩]

def crowded : Engine := Engine.run ⟨Config.busy, Ledger.new Config.busy, 0⟩ crowdedInputs

theorem reachableAt_crowded : ReachableAt Config.busy 4 crowded :=
  have hnew : ReachableAt Config.busy 0 ⟨Config.busy, Ledger.new Config.busy, 0⟩ := .new 0 rfl
  hnew.run crowdedInputs (show Paced (fun _ _ => True) 0 _ _ by simp [Paced, crowdedInputs])

/-- The first leg: makers 1, 3 and 2, in the order of the chain. -/
def crowdedLeg : Leg := ⟨0, .yes, 2, 900000, some 0, 3, some 540000⟩

/-- The second leg: makers 2 and 1, at one price. -/
def crowdedSecond : Leg := ⟨1, .no, 1, 800000, some 4, 2, some 500000⟩

theorem crowded_request : crowded.ledger.request ⟨0, 0⟩ =
    some ⟨0, 50, .opened, [crowdedLeg, crowdedSecond], some ⟨0, 0⟩, none⟩ := by decide +kernel

/-- The accept that takes the best of each leg, both of maker 1. -/
def crowdedAccept : Input :=
  ⟨.acceptRequest ⟨0, 0⟩ [⟨0, 540000⟩, ⟨1, 500000⟩], 5, 9⟩

theorem crowded_accepted : (crowded.answer crowdedAccept).1 = .ok () := by decide +kernel

end Engine

end RfqSettlement
