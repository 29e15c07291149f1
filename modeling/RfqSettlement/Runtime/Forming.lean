/-
  RfqSettlement.Runtime.Forming

  When escrow forms, against the event it is about.

  An `Exchange` is the engine and custody on one clock, with every bundle the engine
  has ordered; custody is sent those bundles and no others.  The comment on the
  configuration's horizon says that a request accepted at its deadline and settling for
  the maximum time still forms escrow before the event.  Inclusion, however, is bounded
  by the winning quotes' expiries alone, so this holds where the accept was `Punctual`:
  of the quotes it fills, one expires no later than each event.
-/

import RfqSettlement.Runtime.Effects
import RfqSettlement.Chain.ExactlyOnce
import RfqSettlement.Core.BestExecution

namespace RfqSettlement

/-- An escrow as it was formed: its contract and what custody's clock read. -/
structure Formation where
  contract : Nat
  now : Nat
deriving DecidableEq, Repr

/-- The two systems; `ordered` is every bundle ever ordered and `formed` every escrow
    ever formed. -/
structure Exchange where
  engine : Engine
  custody : CustodyLedger
  ordered : List Bundle
  formed : List Formation

/-- What happens next.  `submit` sends the bundle ordered `i`-th, for the first time or
    again; `lose` loses the oldest submission. -/
inductive ExchangeOp where
  | command (command : Command) (capacity : Nat)
  | ledger (op : CustodyLedger.LedgerOp)
  | submit (i : Nat)
  | lose
  | includeNext (hook : List CustodyLedger.LedgerOp)

namespace Engine

variable {e : Engine} {input : Input} {last now : Nat} {config : Config} {r : ReqIdx}
  {expected : List ExpectedFill} {y : Request}

-- ============================================================================
-- Accepts
-- ============================================================================

/-- Everything an accept checks: the request, the views, the fills and the buffer. -/
structure Passes (e : Engine) (input : Input) (expected : List ExpectedFill) (y : Request) : Prop where
  opened : y.state = .opened
  live : input.now < y.deadline
  length : expected.length = y.nLegs
  fills : ∀ i leg, y.leg i = some leg → ∃ view sel, expected[i]? = some view ∧ view.leg = i ∧
    LegFills e.ledger input.now leg view sel
  room : y.nLegs * e.config.maxQuotesPerLeg + 1 ≤ input.capacity

/-- The accept of a request that passes fills, for each leg, a quote that expires no
    later than the event of the leg's contract; not necessarily that leg's. -/
def Punctual (e : Engine) (input : Input) : Prop :=
  ∀ r expected y, input.command = .acceptRequest r expected → e.ledger.request r = some y →
    e.Passes input expected y → ∀ leg ∈ y.legs, ∀ c, e.ledger.contract leg.contract = some c →
      ∃ other ∈ y.legs, ∃ sel x, e.ledger.bestOnLeg other input.now = .ok sel ∧
        e.ledger.quote sel.quote = some x ∧ x.expiresAt ≤ c.eventDate

theorem ReachableAt.passes (h : ReachableAt config last e)
    (hcommand : input.command = .acceptRequest r expected) (hok : (e.answer input).1 = .ok ())
    (hr : e.ledger.request r = some y) : e.Passes input expected y := by
  have hn := h.sane.normalised input.command input.now
  have hanswer : e.answer input = (e.normalisedFor input).acceptRequest r expected input.now
      (.withCapacity input.capacity) := by
    rw [Engine.answer, Engine.apply, normalisedFor, hcommand]
    rfl
  rw [hanswer, acceptRequest] at hok
  split at hok
  · cases hok
  next acc hcheck =>
  obtain ⟨hrecord, hopened, hlen, total, hplan⟩ := checkAccept_ok hcheck
  obtain ⟨fills, hc⟩ := hn.sane.healthy.checkAccept hcheck
  obtain ⟨sels, -, -, hfills⟩ := planAccept_ok hplan
  obtain ⟨y', hy', hbare⟩ := (h.sane.sameRecords_normalisedFor input).request hrecord
  rw [hr, Option.some.injEq] at hy'
  obtain rfl := hy'
  have hstate : y.state = acc.record.state := congrArg (fun y => y.state) hbare.symm
  have hdeadline : y.deadline = acc.record.deadline := congrArg (fun y => y.deadline) hbare.symm
  have hlegs : y.legs = acc.record.legs := congrArg (fun y => y.legs) hbare.symm
  refine ⟨hstate.trans hopened, hdeadline ▸ hc.deadline, ?_, fun i leg hleg => ?_, ?_⟩
  · rw [hlen, Request.nLegs, Request.nLegs, hlegs]
  · rw [Request.leg, hlegs] at hleg
    obtain ⟨view, sel, hview, hname, -, hfill⟩ := hfills i leg hleg
    exact ⟨view, sel, hview, by omega,
      (h.sane.bestOnLeg_normalisedFor input leg input.now).symm.trans hfill.best, hfill.expected⟩
  · have hcount : fills.length = y.nLegs := by
      have := congrArg List.length hc.legs
      simpa [Request.auction, Request.nLegs, hlegs] using this
    have hconfig : (e.normalisedFor input).config = e.config := hn.config
    have hroom : (EventBuffer.withCapacity input.capacity).headroom
        (fills.length * (e.normalisedFor input).config.maxQuotesPerLeg + 1) = true := hc.room
    rw [hcount, hconfig] at hroom
    simpa [EventBuffer.headroom, EventBuffer.withCapacity] using hroom

/-- A performance that is not an accept's hands over no bundle. -/
theorem bundles_of_performs {capacity : Nat} {command : Command} {answer : Answer}
    (hp : Performs e now (.withCapacity capacity) command answer) :
    answer.2.2.events.filterMap bundleFrom = [] ∨ answer.1 = .ok () ∧
      (∃ r expected, command = .acceptRequest r expected) ∧
      ∃ b, answer.2.2.events.filterMap bundleFrom = [b] := by
  cases hp with
  | refused => exact .inl rfl
  | traded _ _ hcarried => exact .inl (bundles_of_quiet hcarried.quiet)
  | withdrawn _ hcarried => exact .inl (bundles_of_quiet hcarried.quiet)
  | registered => exact .inl rfl
  | @reported contract status =>
      refine .inl ?_
      cases status with
      | final outcome => exact bundles_of_quiet (EventBuffer.quiet_push rfl)
      | _ => rfl
  | accepted hchecked haccepted =>
      exact .inr ⟨rfl, ⟨_, _, rfl⟩, _, bundles_of_accepted hchecked haccepted⟩
  | resolved _ _ _ _ hresolves => exact .inl (bundles_of_quiet hresolves.carried.quiet)
  | paid _ _ hroom =>
      refine .inl ?_
      have hlt : (EventBuffer.withCapacity capacity).events.length <
          (EventBuffer.withCapacity capacity).capacity := by
        simpa [EventBuffer.headroom, Nat.succ_le_iff] using hroom
      rw [EventBuffer.push_of_room hlt]
      rfl

/-- A settlement is ordered by an accept that succeeds, and alone. -/
theorem Sane.accepted_of_bundle {b : Bundle} (h : e.Sane)
    (hb : b ∈ (e.emits input).filterMap bundleFrom) :
    ∃ r expected, input.command = .acceptRequest r expected ∧ (e.answer input).1 = .ok () ∧
      ∀ b' ∈ (e.emits input).filterMap bundleFrom, b' = b := by
  have hn := h.normalised input.command input.now
  have hperforms := hn.sane.performs input.command input.now (.withCapacity input.capacity)
  have hcases : (e.emits input).filterMap bundleFrom = [] ∨ (e.answer input).1 = .ok () ∧
      (∃ r expected, input.command = .acceptRequest r expected) ∧
      ∃ b, (e.emits input).filterMap bundleFrom = [b] := bundles_of_performs hperforms
  rcases hcases with hnone | ⟨hok, ⟨r, expected, hcommand⟩, b₀, hone⟩
  · simp [hnone] at hb
  · rw [hone, List.mem_singleton] at hb
    refine ⟨r, expected, hcommand, hok, fun b' hb' => ?_⟩
    rw [hone, List.mem_singleton] at hb'
    exact hb'.trans hb.symm

/-- What hands over a bundle is an accept that passes, and each leg of the bundle is the
    best quote on that leg of the request. -/
theorem ReachableAt.ordered {b : Bundle} (h : ReachableAt config last e) (hnow : last ≤ input.now)
    (hb : b ∈ (e.emits input).filterMap bundleFrom) :
    ∃ r expected y, input.command = .acceptRequest r expected ∧ e.ledger.request r = some y ∧
      e.Passes input expected y ∧ b.requester = y.requester ∧ b.legs.length = y.legs.length ∧
      ∀ i leg, y.leg i = some leg → ∃ bundleLeg sel x, b.legs[i]? = some bundleLeg ∧
        e.ledger.bestOnLeg leg input.now = .ok sel ∧ e.ledger.quote sel.quote = some x ∧
        bundleLeg.contract = leg.contract ∧ bundleLeg.quoteExpiry = x.expiresAt := by
  obtain ⟨r, expected, hcommand, hok, honly⟩ := h.sane.accepted_of_bundle hb
  obtain ⟨y, intent, hr, -, hevent, hlength, hfills⟩ := h.accept_fills hcommand hnow hok
  have hbundle : b = ⟨Nonce.of r, y.requester, intent.map IntentLeg.toBundleLeg⟩ :=
    (honly _ (List.mem_filterMap.mpr ⟨_, hevent, rfl⟩)).symm
  refine ⟨r, expected, y, hcommand, hr, h.passes hcommand hok hr, by rw [hbundle], ?_, ?_⟩
  · rw [hbundle, List.length_map, hlength, Request.nLegs]
  · intro i leg hleg
    obtain ⟨_, fill, sel, x, -, hfill, hbest⟩ := hfills i leg hleg
    refine ⟨fill.toBundleLeg, sel, x, ?_, hbest.best, hbest.quoted.stored, ?_, ?_⟩
    · rw [hbundle, List.getElem?_map, hfill]
      rfl
    · rw [hbest.fill]
      rfl
    · rw [hbest.fill]
      rfl

/-- And the accept of a request that goes through hands over a bundle. -/
theorem ReachableAt.hands_over (h : ReachableAt config last e) (hnow : last ≤ input.now)
    (hcommand : input.command = .acceptRequest r expected) (hok : (e.answer input).1 = .ok ()) :
    ∃ b, b ∈ (e.emits input).filterMap bundleFrom := by
  obtain ⟨y, intent, -, -, hevent, -⟩ := h.accept_fills hcommand hnow hok
  exact ⟨_, List.mem_filterMap.mpr ⟨_, hevent, rfl⟩⟩

/-- Each leg's contract is registered, and some leg's quote expires no later than its event. -/
def Dated (e : Engine) (b : Bundle) : Prop :=
  ∀ leg ∈ b.legs, ∃ c, e.ledger.contract leg.contract = some c ∧
    ∃ other ∈ b.legs, other.quoteExpiry ≤ c.eventDate

/-- What a punctual accept orders is dated. -/
theorem ReachableAt.dated {b : Bundle} (h : ReachableAt config last e) (hnow : last ≤ input.now)
    (hpunctual : e.Punctual input) (hb : b ∈ (e.emits input).filterMap bundleFrom) :
    (e.step input).Dated b := by
  obtain ⟨r, expected, y, hcommand, hr, hpasses, -, hlength, hlegs⟩ := h.ordered hnow hb
  intro bundleLeg hleg
  obtain ⟨i, hi⟩ := List.mem_iff_getElem?.mp hleg
  have hlt : i < y.legs.length := by
    rw [← hlength]
    exact (List.getElem?_eq_some_iff.mp hi).1
  obtain ⟨_, _, _, hi', -, -, hcontract, -⟩ := hlegs i _ (List.getElem?_eq_getElem hlt)
  obtain rfl := Option.some.inj (hi.symm.trans hi')
  obtain ⟨c, hc, -⟩ := h.timely.horizon r y.auction (Ledger.market_auctions hr) (y.legs[i].spec)
    (List.mem_map_of_mem (List.getElem_mem hlt))
  obtain ⟨other, hother, sel, x, hbest, hx, hexpires⟩ := hpunctual r expected y hcommand hr
    hpasses _ (List.getElem_mem hlt) c hc
  obtain ⟨j, hj⟩ := List.mem_iff_getElem?.mp hother
  obtain ⟨otherLeg, sel', x', hj', hbest', hx', -, hexpiry⟩ := hlegs j other hj
  obtain rfl := Except.ok.inj (hbest.symm.trans hbest')
  obtain rfl := Option.some.inj (hx.symm.trans hx')
  obtain ⟨c', hc', hdate⟩ := h.sane.contract_step input hc
  refine ⟨c', by rw [hcontract]; exact hc', otherLeg, List.mem_of_getElem? hj', ?_⟩
  rw [hdate, hexpiry]
  exact hexpires

/-- What an accept that is not punctual orders: for one of its contracts every quote
    outlasts the event, and custody's expiry check lets the bundle form escrow then. -/
theorem ReachableAt.outlasts (h : ReachableAt config last e) (hnow : last ≤ input.now)
    (hok : (e.answer input).1 = .ok ()) (hnot : ¬ e.Punctual input) :
    ∃ b ∈ (e.emits input).filterMap bundleFrom, ∃ leg ∈ b.legs, ∃ c,
      e.ledger.contract leg.contract = some c ∧ ∀ other ∈ b.legs, c.eventDate < other.quoteExpiry := by
  unfold Punctual at hnot
  push Not at hnot
  obtain ⟨r, expected, y, hcommand, hr, -, leg, hleg, c, hc, hlate⟩ := hnot
  obtain ⟨b, hb⟩ := h.hands_over hnow hcommand hok
  obtain ⟨r', _, y', hcommand', hr', -, -, hlength, hlegs⟩ := h.ordered hnow hb
  obtain ⟨rfl, -⟩ := Command.acceptRequest.inj (hcommand.symm.trans hcommand')
  obtain rfl : y = y' := Option.some.inj (hr.symm.trans hr')
  obtain ⟨i, hi⟩ := List.mem_iff_getElem?.mp hleg
  obtain ⟨bundleLeg, _, _, hi', -, -, hcontract, -⟩ := hlegs i leg hi
  refine ⟨b, hb, bundleLeg, List.mem_of_getElem? hi', c, by rw [hcontract]; exact hc,
    fun other hother => ?_⟩
  obtain ⟨j, hj⟩ := List.mem_iff_getElem?.mp hother
  have hlt : j < y.legs.length := by
    rw [← hlength]
    exact (List.getElem?_eq_some_iff.mp hj).1
  obtain ⟨_, sel, x, hj', hbest, hx, -, hexpiry⟩ := hlegs j _ (List.getElem?_eq_getElem hlt)
  obtain rfl := Option.some.inj (hj.symm.trans hj')
  rw [hexpiry]
  exact hlate _ (List.getElem_mem hlt) sel x hbest hx

theorem Sane.dated_step {b : Bundle} (h : e.Sane) (hdated : e.Dated b) (input : Input) :
    (e.step input).Dated b := by
  intro leg hleg
  obtain ⟨c, hc, other, hother, hexpires⟩ := hdated leg hleg
  obtain ⟨c', hc', hdate⟩ := h.contract_step input hc
  exact ⟨c', hc', other, hother, hdate ▸ hexpires⟩

/-- The quotes an accept that passes fills expire within a quote's term of its deadline. -/
theorem ReachableAt.expires_of_passes {leg : Leg} (h : ReachableAt config last e)
    (hr : e.ledger.request r = some y) (hpasses : e.Passes input expected y) (hleg : leg ∈ y.legs) :
    ∃ sel x, e.ledger.bestOnLeg leg input.now = .ok sel ∧ e.ledger.quote sel.quote = some x ∧
      x.expiresAt < y.deadline + config.maxQuoteTtl := by
  obtain ⟨i, hi⟩ := List.mem_iff_getElem?.mp hleg
  obtain ⟨view, sel, -, -, hfill⟩ := hpasses.fills i leg hi
  have hbest := h.sane.bestOf (numbered_of_reachable h.reachable) hr hpasses.opened hi input.now
  rw [hfill.best] at hbest
  generalize hfound : (Except.ok sel : Except NoQuoteReason Selection) = found at hbest
  cases hbest with
  | @found q x hquoted =>
      obtain rfl : sel = ⟨q, x.price⟩ := Except.ok.inj hfound
      refine ⟨_, x, hfill.best, hquoted.stored, ?_⟩
      obtain ⟨a, ha, hwithin⟩ := h.timely.within q x.offer (Ledger.market_offers hquoted.stored)
      obtain rfl : y.auction = a := by
        have hrequest : x.offer.request = r := hquoted.request
        rw [hrequest] at ha
        exact Option.some.inj ((Ledger.market_auctions hr).symm.trans ha)
      rw [h.config_eq] at hwithin
      exact hwithin
  | _ => cases hfound

/-- Short quotes make every accept punctual. -/
theorem ReachableAt.punctual (h : ReachableAt config last e)
    (hshort : config.maxRequestTtl + config.maxQuoteTtl ≤ config.minHorizon + 2) :
    e.Punctual input := by
  intro r expected y hcommand hr hpasses leg hleg c hc
  obtain ⟨sel, x, hbest, hx, hwithin⟩ := h.expires_of_passes hr hpasses hleg
  obtain ⟨c', hc', hhorizon⟩ := h.timely.horizon r y.auction (Ledger.market_auctions hr) leg.spec
    (List.mem_map_of_mem hleg)
  obtain rfl : c = c' := Option.some.inj (hc.symm.trans hc')
  rw [h.config_eq] at hhorizon
  have hwithin : x.expiresAt < y.auction.deadline + config.maxQuoteTtl := hwithin
  exact ⟨leg, hleg, sel, x, hbest, hx, by omega⟩

end Engine

namespace Exchange

variable {config : Config} {maxEscrows now last : Nat} {x x' : Exchange} {op : ExchangeOp}
  {ok : Exchange → Nat → ExchangeOp → Prop}

-- ============================================================================
-- Runs
-- ============================================================================

/-- An engine and a custody that have done nothing yet. -/
def start (engine : Engine) (maxEscrows : Nat) : Exchange where
  engine
  custody := .new engine.config.withdrawalDelay engine.config.maxAccounts maxEscrows
  ordered := []
  formed := []

/-- What custody has formed in going to `custody`. -/
def formations (x : Exchange) (custody : CustodyLedger) (now : Nat) : List Formation :=
  (custody.escrows.drop x.custody.escrows.length).map fun e => ⟨e.contract, now⟩

/-- Custody gone on to `custody`. -/
def advance (x : Exchange) (custody : CustodyLedger) (now : Nat) : Exchange :=
  { x with custody, formed := x.formed ++ x.formations custody now }

/-- One operation, at the instant both clocks read. -/
def perform (x : Exchange) (now : Nat) : ExchangeOp → Exchange
  | .command command capacity => { x with
      engine := x.engine.step ⟨command, now, capacity⟩
      ordered := x.ordered ++ (x.engine.emits ⟨command, now, capacity⟩).filterMap bundleFrom }
  | .ledger op => x.advance (op.apply x.custody) now
  | .submit i =>
    match x.ordered[i]? with
    | some bundle => x.advance (x.custody.submit bundle).2 now
    | none => x
  | .lose => x.advance x.custody.dropNextSubmission.2 now
  | .includeNext hook => x.advance (x.custody.includeNext hook now).2 now

/-- Reached by operations `ok` allows, at instants that never go back. -/
inductive Reached (config : Config) (maxEscrows : Nat) (ok : Exchange → Nat → ExchangeOp → Prop) :
    Nat → Exchange → Prop where
  | new {engine : Engine} (now : Nat) (hnew : Engine.new config = .ok engine) :
      Reached config maxEscrows ok now (start engine maxEscrows)
  | step {last now : Nat} {x : Exchange} (op : ExchangeOp) (h : Reached config maxEscrows ok last x)
      (hnow : last ≤ now) (hok : ok x now op) :
      Reached config maxEscrows ok now (x.perform now op)

/-- One operation after another, each with its instant. -/
def run (x : Exchange) (ops : List (Nat × ExchangeOp)) : Exchange :=
  ops.foldl (fun x o => x.perform o.1 o.2) x

theorem Reached.run {ops : List (Nat × ExchangeOp)} (h : Reached config maxEscrows ok last x)
    (hpaced : (last :: ops.map Prod.fst).IsChain (· ≤ ·)) (hok : ∀ x now op, ok x now op) :
    ∃ now, Reached config maxEscrows ok now (x.run ops) := by
  induction ops generalizing last x with
  | nil => exact ⟨last, h⟩
  | cons o ops ih =>
      obtain ⟨hnow, hrest⟩ := List.isChain_cons_cons.mp hpaced
      exact ih (h.step o.2 hnow (hok x o.1 o.2)) hrest

/-- Every command is punctual. -/
def Punctual (x : Exchange) (now : Nat) : ExchangeOp → Prop
  | .command command capacity => x.engine.Punctual ⟨command, now, capacity⟩
  | _ => True

/-- Custody holds dated bundles alone, and has formed each escrow in time. -/
structure InTime (config : Config) (now : Nat) (x : Exchange) : Prop where
  reachable : ∃ last, last ≤ now ∧ Engine.ReachableAt config last x.engine
  ordered : ∀ b ∈ x.ordered, x.engine.Dated b
  pending : ∀ b ∈ x.custody.pending, b ∈ x.ordered
  formed : ∀ f ∈ x.formed, ∃ c, x.engine.ledger.contract f.contract = some c ∧ f.now < c.eventDate

theorem InTime.mono (h : x.InTime config last) (hnow : last ≤ now) : x.InTime config now := by
  obtain ⟨last', hle, hreachable⟩ := h.reachable
  exact ⟨⟨last', hle.trans hnow, hreachable⟩, h.ordered, h.pending, h.formed⟩

/-- Custody goes on without forming an escrow. -/
theorem InTime.quiet {custody : CustodyLedger} (h : x.InTime config now)
    (hpending : ∀ b ∈ custody.pending, b ∈ x.ordered)
    (hescrows : custody.escrows.length = x.custody.escrows.length) :
    (x.advance custody now).InTime config now := by
  refine ⟨h.reachable, h.ordered, hpending, fun f hf => ?_⟩
  have hnone : x.formations custody now = [] := by
    rw [formations, List.drop_of_length_le hescrows.le, List.map_nil]
  rw [advance, hnone, List.append_nil] at hf
  exact h.formed f hf

/-- A submission included: what forms, forms before its event. -/
theorem InTime.includes (h : x.InTime config now) (hook : List CustodyLedger.LedgerOp) :
    (x.advance (x.custody.includeNext hook now).2 now).InTime config now := by
  have hpending : ∀ b ∈ (x.custody.includeNext hook now).2.pending, b ∈ x.ordered := by
    intro b hb
    rw [CustodyLedger.pending_includeNext] at hb
    exact h.pending b (List.mem_of_mem_tail hb)
  have hinclusion := CustodyLedger.includeNext_cases x.custody hook now
  generalize x.custody.includeNext hook now = after at hinclusion hpending ⊢
  cases hinclusion with
  | idle => exact h.quiet hpending rfl
  | bounced => exact h.quiet hpending rfl
  | reverted => exact h.quiet hpending (CustodyLedger.escrows_length_fire hook)
  | @settled bundle pending receipt debits hqueue _ hvalidated =>
      refine ⟨h.reachable, h.ordered, hpending, fun f hf => ?_⟩
      rcases List.mem_append.mp hf with hf | hf
      · exact h.formed f hf
      have hlength : (({ x.custody with pending } : CustodyLedger).fire hook).escrows.length =
          x.custody.escrows.length := CustodyLedger.escrows_length_fire hook
      have hescrows : ((({ x.custody with pending } : CustodyLedger).fire hook).commitBundle bundle
          debits).escrows = (({ x.custody with pending } : CustodyLedger).fire hook).escrows ++
            bundle.escrows := CustodyLedger.escrows_commitBundle bundle debits
      obtain ⟨escrow, hescrow, rfl⟩ := List.mem_map.mp hf
      have hformed : escrow ∈ bundle.escrows := by
        have hadded : (((({ x.custody with pending } : CustodyLedger).fire hook).commitBundle bundle
            debits).escrows).drop x.custody.escrows.length = bundle.escrows := by
          rw [hescrows, ← hlength, List.drop_left]
        exact hadded ▸ hescrow
      obtain ⟨leg, hleg, rfl⟩ := List.mem_map.mp hformed
      have hdated := h.ordered bundle (h.pending bundle (by simp [hqueue]))
      obtain ⟨c, hc, other, hother, hexpires⟩ := hdated leg hleg
      exact ⟨c, hc, Nat.lt_of_lt_of_le (hvalidated.legs.alive other hother) hexpires⟩

/-- A punctual command: the bundle it orders is dated, and the others stay so. -/
theorem InTime.command {command : Command} {capacity : Nat} (h : x.InTime config now)
    (hpunctual : x.engine.Punctual ⟨command, now, capacity⟩) :
    (x.perform now (.command command capacity)).InTime config now := by
  obtain ⟨last, hle, hreachable⟩ := h.reachable
  refine ⟨⟨now, le_rfl, hreachable.step ⟨command, now, capacity⟩ hle⟩, fun b hb => ?_,
    fun b hb => List.mem_append_left _ (h.pending b hb), fun f hf => ?_⟩
  · rcases List.mem_append.mp hb with hb | hb
    · exact hreachable.sane.dated_step (h.ordered b hb) _
    · exact hreachable.dated hle hpunctual hb
  · obtain ⟨c, hc, hbefore⟩ := h.formed f hf
    obtain ⟨c', hc', hdate⟩ := hreachable.sane.contract_step ⟨command, now, capacity⟩ hc
    exact ⟨c', hc', hdate ▸ hbefore⟩

theorem InTime.perform (h : x.InTime config last) (hnow : last ≤ now) (hok : x.Punctual now op) :
    (x.perform now op).InTime config now := by
  have h := h.mono hnow
  cases op with
  | command command capacity => exact h.command hok
  | ledger op =>
      refine h.quiet (fun b hb => h.pending b ?_) (CustodyLedger.escrows_length_apply op)
      exact (CustodyLedger.sameQueue_fire (l := x.custody) [op]).pending ▸ hb
  | submit i =>
      cases hi : x.ordered[i]? with
      | none =>
          have hsame : x.perform now (.submit i) = x := by simp only [Exchange.perform, hi]
          exact hsame.symm ▸ h
      | some bundle =>
          have hsent : x.perform now (.submit i) = x.advance (x.custody.submit bundle).2 now := by
            simp only [Exchange.perform, hi]
          refine hsent.symm ▸ h.quiet (fun b hb => ?_) rfl
          rcases List.mem_append.mp hb with hb | hb
          · exact h.pending b hb
          · rw [List.mem_singleton.mp hb]
            exact List.mem_of_getElem? hi
  | lose =>
      have hlost : x.custody.dropNextSubmission.2 =
          { x.custody with pending := x.custody.pending.tail } := by
        unfold CustodyLedger.dropNextSubmission
        cases hqueue : x.custody.pending with
        | nil =>
            show x.custody = { x.custody with pending := [] }
            rw [← hqueue]
        | cons bundle pending => rfl
      rw [Exchange.perform, hlost]
      exact h.quiet (fun b hb => h.pending b (List.mem_of_mem_tail hb)) rfl
  | includeNext hook => exact h.includes hook

theorem inTime_start {engine : Engine} (hnew : Engine.new config = .ok engine) :
    (start engine maxEscrows).InTime config now :=
  ⟨⟨now, le_rfl, .new now hnew⟩, by simp [start], by simp [start, CustodyLedger.new], by simp [start]⟩

theorem Reached.inTime (h : Reached config maxEscrows Punctual now x) : x.InTime config now := by
  induction h with
  | new now hnew => exact inTime_start hnew
  | step op _ hnow hok ih => exact ih.perform hnow hok

/-- With short quotes every run is punctual. -/
theorem Reached.punctual (h : Reached config maxEscrows ok now x)
    (hshort : config.maxRequestTtl + config.maxQuoteTtl ≤ config.minHorizon + 2) :
    Reached config maxEscrows Punctual now x := by
  induction h with
  | new now hnew => exact .new now hnew
  | step op _ hnow _ ih =>
      refine ih.step op hnow ?_
      cases op with
      | command =>
          obtain ⟨_, -, hreachable⟩ := ih.inTime.reachable
          exact hreachable.punctual hshort
      | _ => trivial

/-- In every run whose accepts are punctual, each escrow formed was formed before the
    event its contract is registered with. -/
theorem formed_before_event (h : Reached config maxEscrows Punctual now x) :
    ∀ f ∈ x.formed, ∃ c, x.engine.ledger.contract f.contract = some c ∧ f.now < c.eventDate :=
  h.inTime.formed

/-- A trade of two accounts on a contract whose event is at `eventDate`, the quote
    expiring at `expiresAt` and the bundle included at `included`. -/
def tradeOps (eventDate expiresAt included : Nat) : List (Nat × ExchangeOp) :=
  [(0, .ledger (.deposit 0 2000000)), (0, .ledger (.deposit 1 2000000)),
    (0, .command (.creditAccount 0 2000000) 8), (0, .command (.creditAccount 1 2000000) 8),
    (0, .command (.registerContract 0 eventDate) 8),
    (0, .command (.submitRequest 0 100 [⟨0, .yes, 2, 600000⟩]) 8),
    (99, .command (.submitQuote 1 ⟨0, 0⟩ 0 500000 2 expiresAt) 8),
    (99, .command (.acceptRequest ⟨0, 0⟩ [⟨0, 500000⟩]) 8), (99, .submit 0),
    (included, .includeNext [])]

theorem formed_before_event_traded :
    ((start ⟨Config.small, Ledger.new Config.small, 0⟩ 4).run (tradeOps 300 199 198)).formed =
        [⟨0, 198⟩] ∧
      ∀ f ∈ ((start ⟨Config.small, Ledger.new Config.small, 0⟩ 4).run (tradeOps 300 199 198)).formed,
        ∃ c, ((start ⟨Config.small, Ledger.new Config.small, 0⟩ 4).run
          (tradeOps 300 199 198)).engine.ledger.contract f.contract = some c ∧ f.now < c.eventDate := by
  have hstart : Reached Config.small 4 (fun _ _ _ => True) 0
      (start ⟨Config.small, Ledger.new Config.small, 0⟩ 4) := .new 0 rfl
  have hpaced : (0 :: (tradeOps 300 199 198).map Prod.fst).IsChain (· ≤ ·) := by decide
  obtain ⟨now, hreached⟩ := hstart.run hpaced fun _ _ _ => trivial
  exact ⟨by decide +kernel, formed_before_event (hreached.punctual (by decide))⟩

/-- A configuration that starts, with quotes that outlast its horizon. -/
def farsighted : Config :=
  { Config.small with maxQuoteTtl := 1000, maxSettlingTime := 10, minHorizon := 111, withdrawalDelay := 1100 }

/-- The horizon holds at its last legal instant, and escrow forms after the event. -/
theorem formed_after_event :
    ¬ ∀ (config : Config) (maxEscrows now : Nat) (x : Exchange),
      Reached config maxEscrows (fun _ _ _ => True) now x →
        ∀ f ∈ x.formed, ∃ c, x.engine.ledger.contract f.contract = some c ∧ f.now < c.eventDate := by
  intro hall
  have hstart : Reached farsighted 4 (fun _ _ _ => True) 0
      (start ⟨farsighted, Ledger.new farsighted, 0⟩ 4) := .new 0 rfl
  have hpaced : (0 :: (tradeOps 112 1099 500).map Prod.fst).IsChain (· ≤ ·) := by decide
  obtain ⟨now, hreached⟩ := hstart.run hpaced fun _ _ _ => trivial
  obtain ⟨c, hc, hbefore⟩ := hall farsighted 4 now _ hreached ⟨0, 500⟩ (by decide +kernel)
  have hdate : (((start ⟨farsighted, Ledger.new farsighted, 0⟩ 4).run
      (tradeOps 112 1099 500)).engine.ledger.contract 0).all (fun c => decide (c.eventDate = 112)) = true := by
    decide +kernel
  rw [hc] at hdate
  have hevent : c.eventDate = 112 := by simpa using hdate
  have hbefore : 500 < c.eventDate := hbefore
  omega

end Exchange

end RfqSettlement
