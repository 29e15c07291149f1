/-
  RfqSettlement.Core.LegLinks

  The links of every stored request, whatever its state, and what breaks them.

  Links carry no generation.  Until a request's settlement is answered each of its chains
  visits stored quotes of its own leg (`Book.Chained`), so `LegsLinked` holds while no
  stored request is answered (`Sane.legsLinked`).  The answer frees the winners' slots and
  leaves the heads as they are: from then on they name quotes that are not stored for the
  request (`Reachable.legs_dangle`).
-/

import RfqSettlement.Core.Discharging
import RfqSettlement.Core.Metering

namespace RfqSettlement

-- ============================================================================
-- What a link reaches
-- ============================================================================

namespace Ledger

open Intrusive (Path)

variable {l : Ledger} {r : ReqIdx} {i max : Nat} {leg : Leg} {y : Request} {head link : Link}
  {qs : List QuoteIdx}

/-- The links met from `head` on, following `next_on_leg`. -/
inductive LinkReached (l : Ledger) (head : Link) : Link → Prop where
  | head : LinkReached l head head
  | next {index : Nat} {q : QuoteIdx} {x : Quote} (h : LinkReached l head (some index))
      (hhandle : l.quoteHandleAt index = some q) (hx : l.quote q = some x) :
      LinkReached l head x.nextOnLeg

/-- Every link reached from a stored request's leg names an occupied slot, and the quote in
    it is one of the request's, on that leg; so is every quote a walk of the leg yields. -/
structure LegsLinked (l : Ledger) : Prop where
  linked : ∀ r y i leg index, l.request r = some y → y.leg i = some leg →
    l.LinkReached leg.quotesHead (some index) →
      ∃ q x, l.quoteHandleAt index = some q ∧ l.quote q = some x ∧ x.request = r ∧ x.leg = i
  walked : ∀ r y i leg fuel, l.request r = some y → y.leg i = some leg →
    ∀ v ∈ l.walkFrom fuel leg.quotesHead, v.2.request = r ∧ v.2.leg = i

/-- A link reached from the front of a chain is the front of what is left of it. -/
theorem LinkReached.path (h : l.LinkReached head link)
    (hpath : Path Handle.index l.book.nextOf head qs none) :
    ∃ qs', qs' ⊆ qs ∧ Path Handle.index l.book.nextOf link qs' none := by
  induction h with
  | head => exact ⟨qs, fun _ h => h, hpath⟩
  | @next index q x _ hhandle hx ih =>
      obtain ⟨qs', hsub, hpath'⟩ := ih
      cases qs' with
      | nil => cases (show some index = none from hpath')
      | cons p qs' =>
          obtain ⟨hindex, n, hn, hrest⟩ := hpath'
          obtain ⟨x', hx', rfl⟩ := quote_of_nextOf hn
          have hp : l.quoteHandleAt index = some p := by
            rw [Option.some.inj hindex]
            exact quoteHandleAt_of_quote hx'
          obtain rfl : p = q := Option.some.inj (hp.symm.trans hhandle)
          obtain rfl : x' = x := Option.some.inj (hx'.symm.trans hx)
          exact ⟨qs', fun a ha => hsub (List.mem_cons_of_mem _ ha), hrest⟩

/-- What a walk yields was read through a link it reached. -/
theorem linkReached_of_walk {fuel : Nat} {v : QuoteIdx × Quote} (h : l.LinkReached head link)
    (hv : v ∈ l.walkFrom fuel link) :
    ∃ index, l.LinkReached head (some index) ∧ l.quoteHandleAt index = some v.1 ∧
      l.quote v.1 = some v.2 := by
  induction fuel generalizing link with
  | zero => cases link <;> cases hv
  | succ fuel ih =>
      cases link with
      | none => cases hv
      | some index =>
          simp only [walkFrom] at hv
          split at hv
          · cases hv
          next q hq =>
          split at hv
          · cases hv
          next x hx =>
          rcases List.mem_cons.mp hv with rfl | hv
          · exact ⟨index, h, hq, hx⟩
          · exact ih (h.next hq hx) hv

/-- The links are enough: walks follow them. -/
theorem legsLinked_of_linked
    (h : ∀ r y i leg index, l.request r = some y → y.leg i = some leg →
      l.LinkReached leg.quotesHead (some index) →
        ∃ q x, l.quoteHandleAt index = some q ∧ l.quote q = some x ∧ x.request = r ∧ x.leg = i) :
    l.LegsLinked := by
  refine ⟨h, fun r y i leg fuel hy hleg v hv => ?_⟩
  obtain ⟨index, hreached, hhandle, hx⟩ := linkReached_of_walk .head hv
  obtain ⟨q, x, hq, hqx, hr, hi⟩ := h r y i leg index hy hleg hreached
  obtain rfl : q = v.1 := Option.some.inj (hq.symm.trans hhandle)
  obtain rfl : x = v.2 := Option.some.inj (hqx.symm.trans hx)
  exact ⟨hr, hi⟩

/-- A request that is not answered has its links in order. -/
theorem Healthy.legsLinked (h : l.Healthy max none)
    (hopen : ∀ r y, l.request r = some y → y.state.isAnswered = false) : l.LegsLinked := by
  refine legsLinked_of_linked fun r y i leg index hy hleg hreached => ?_
  obtain ⟨qs, hchain, -⟩ := h.chained r _ (book_requests hy) (hopen r y hy) i leg hleg
  obtain ⟨qs', hsub, hpath⟩ := hreached.path hchain.path
  cases qs' with
  | nil => cases (show some index = none from hpath)
  | cons q qs' =>
      obtain ⟨hindex, -⟩ := hpath
      obtain ⟨x, hx, hr, hi⟩ := hchain.stored (hsub List.mem_cons_self)
      refine ⟨q, x, ?_, hx, hr, hi⟩
      rw [Option.some.inj hindex]
      exact quoteHandleAt_of_quote hx

-- ============================================================================
-- What an answer leaves
-- ============================================================================

/-- A discharge leaves the legs of requests alone. -/
theorem Healthy.legs_dischargeCommitted {a : Auction} (h : l.Healthy max none)
    (ha : l.market.auctions r = some a) (hsettling : a.IsSettling) (r' : ReqIdx) :
    ((CommitPhase.dischargeCommitted l r).2.request r').map Request.legs =
      (l.request r').map Request.legs := by
  obtain ⟨gone, l', heq, hd, -⟩ := h.dischargeCommitted 0 ha hsettling
  have hrequests := congrArg (Option.map Request.legs) (hd.requests r')
  simp only [book, Option.map_map] at hrequests
  rw [heq]
  refine Eq.trans (Option.map_congr fun y _ => ?_)
    (hrequests.trans (Option.map_congr fun y _ => ?_))
  · rfl
  · simp only [Function.comp_apply]
    split <;> rfl

theorem requests_closeQuotes (qs : List QuoteIdx) :
    (qs.foldl CommitPhase.closeQuote l).requests = l.requests := by
  induction qs generalizing l with
  | nil => rfl
  | cons q qs ih => exact ih.trans rfl

end Ledger

-- ============================================================================
-- Answers
-- ============================================================================

namespace Market

/-- No stored request's settlement has been answered. -/
def Unanswered (m : Market) : Prop :=
  ∀ r a, m.auctions r = some a → a.state.isAnswered = false

/-- Only a resolution answers. -/
theorem Steps.unanswered {m m' : Market} {now : Nat} {scope : Scope}
    (hsteps : Steps now scope m m') (hscope : ∀ r, scope ≠ .resolving r) (h : m.Unanswered) :
    m'.Unanswered := by
  intro r a ha
  cases hold : m.auctions r with
  | none =>
      rw [(hsteps.auction_new hold ha).1]
      rfl
  | some a₀ =>
      obtain ⟨st, hst, hmoves⟩ := hsteps.auction hold
      obtain rfl : a = a₀.withState st := Option.some.inj (ha.symm.trans hst)
      show st.isAnswered = false
      rcases hmoves with rfl | hmoves
      · exact h r a₀ hold
      · generalize a₀.state = s at hmoves
        cases hmoves with
        | settle => rfl
        | reject => rfl
        | resolve hresolving => exact absurd hresolving (hscope r)

end Market

namespace Engine

open Ledger (LinkReached LegsLinked answered)

variable {e : Engine} {now deadline capacity : Nat} {r : ReqIdx} {y : Request} {nonce : Nonce}
  {status : TxStatus} {events : EventBuffer} {input : Input} {config : Config}

/-- `input` reports the outcome of a stored settling request's transaction, and the buffer
    has room for what that declares. -/
def Concludes (e : Engine) (input : Input) : Prop :=
  ∃ r y deadline status, input.command = .pollSettlement (Nonce.of r) status ∧
    status.isTerminal = true ∧ e.ledger.request r = some y ∧
    y.state = .settling (Nonce.of r) deadline ∧ e.declared input.command ≤ input.capacity

/-- What an outcome does to the ledger, whichever it is, if there is room to tell of it. -/
theorem pollSettlement_of_settling (now : Nat) (events : EventBuffer)
    (hresolve : resolveNonce e.ledger nonce = some r)
    (hy : e.ledger.request r = some y) (hstate : y.state = .settling nonce deadline)
    (hterminal : status.isTerminal = true) :
    ∃ b, e.pollSettlement nonce status now events =
      if !events.headroom (e.declared (.pollSettlement nonce status)) then
        e.refuse events .eventBufferFull
      else e.done (closeConsumedQuotes ((Ledger.CommitPhase.dischargeCommitted e.ledger r).2
        |>.modifyRequest r fun y => y.setState (answered status)) r, b) := by
  have hnonce : ¬ nonce ≠ nonce := by simp
  unfold pollSettlement
  simp only [hresolve, hy, hstate, hnonce, if_false]
  cases status with
  | unknown => cases hterminal
  | pending => cases hterminal
  | settled => exact ⟨(e.settleRequest r nonce events).2, rfl⟩
  | reverted =>
      have hdeclared : e.declared (.pollSettlement nonce .reverted) = y.nLegs + 1 := by
        simp [declared, hresolve, hy]
      rw [hdeclared]
      refine ⟨(e.failRequest r nonce events).2, ?_⟩
      rw [Ledger.closeConsumedQuotes_modifyRequest]
      rfl

/-- A report that answers nothing leaves the engine as it was. -/
theorem Sane.unanswering (h : e.Sane)
    (hnot : ¬ e.Concludes ⟨.pollSettlement nonce status, now, capacity⟩) :
    (e.pollSettlement nonce status now (.withCapacity capacity)).2.1 = e := by
  have hpoll : (∃ err, e.pollSettlement nonce status now (.withCapacity capacity) =
      e.refuse (.withCapacity capacity) err) ∨ _ := h.healthy.pollSettlement
  rcases hpoll with ⟨err, heq⟩ | ⟨b, heq, -⟩ |
    ⟨r, y, d, w', hy, hstate, rfl, hresolve, hterminal, -⟩
  · rw [heq]
    rfl
  · rw [heq]
  · obtain ⟨b, heq⟩ := pollSettlement_of_settling now (.withCapacity capacity)
      hresolve hy hstate hterminal
    rw [heq, if_pos]
    · rfl
    · by_contra hroom
      refine hnot ⟨r, y, d, status, rfl, hterminal, hy, hstate, ?_⟩
      simpa [EventBuffer.headroom, EventBuffer.withCapacity] using hroom

/-- Whether an input answers is a matter of the requests. -/
theorem concludes_congr {e' : Engine} (hauctions : e'.market.auctions = e.market.auctions)
    (h : e.Concludes input) : e'.Concludes input := by
  obtain ⟨r, y, d, status, hcommand, hterminal, hy, hstate, hroom⟩ := h
  have ha : e'.market.auctions r = some y.auction := by
    rw [hauctions]
    exact Ledger.market_auctions hy
  obtain ⟨y', hy', hauction⟩ := Ledger.request_of_market ha
  refine ⟨r, y', d, status, hcommand, hterminal, hy', ?_, ?_⟩
  · exact (congrArg Auction.state hauction).trans hstate
  · have hlegs : y'.nLegs = y.nLegs := by
      have := congrArg (fun a => a.legs.length) hauction
      simpa [Request.auction, Request.nLegs] using this
    have hresolve : resolveNonce e.ledger (Nonce.of r) = some r :=
      Ledger.resolveNonce_eq_some.mpr ⟨rfl, by rw [hy]; rfl⟩
    have hresolve' : resolveNonce e'.ledger (Nonce.of r) = some r :=
      Ledger.resolveNonce_eq_some.mpr ⟨rfl, by rw [hy']; rfl⟩
    have hdeclared : e'.declared input.command = e.declared input.command := by
      rw [hcommand]
      cases status <;> simp [declared, hresolve, hresolve', hy, hy', hlegs]
    rwa [hdeclared]

theorem Normalised.unanswered {n : Engine} (hn : Normalised now e n) (h : e.market.Unanswered) :
    n.market.Unanswered := by
  intro r a ha
  rw [hn.auctions] at ha
  exact h r a ha

/-- An input that answers nothing leaves no request answered. -/
theorem Sane.unanswered_step (h : e.Sane) (hun : e.market.Unanswered) (hnot : ¬ e.Concludes input) :
    (e.step input).market.Unanswered := by
  have hn := h.normalised input.command input.now
  have hun := hn.unanswered hun
  obtain ⟨scope, hfor, hadv⟩ :=
    hn.sane.advances input.command input.now (.withCapacity input.capacity)
  by_cases hpoll : ∃ nonce status, input.command = .pollSettlement nonce status
  · obtain ⟨command, now, capacity⟩ := input
    obtain ⟨nonce, status, rfl⟩ := hpoll
    have hidle : (e.step ⟨.pollSettlement nonce status, now, capacity⟩) =
        e.normaliseAll (e.touchedAccounts (.pollSettlement nonce status)) now :=
      hn.sane.unanswering fun hconcludes => hnot (concludes_congr hn.auctions.symm hconcludes)
    rw [hidle]
    exact hun
  · refine hadv.steps.unanswered (fun r hscope => ?_) hun
    subst hscope
    generalize input.command = command at hpoll hfor
    cases command with
    | pollSettlement nonce status => exact hpoll ⟨nonce, status, rfl⟩
    | submitQuote => rcases hfor with hfor | ⟨q, o, hfor, -⟩ <;> cases hfor
    | _ => cases hfor

/-- While no stored request is answered, every link is in order. -/
theorem Sane.legsLinked (h : e.Sane) (hun : e.market.Unanswered) : e.ledger.LegsLinked :=
  h.healthy.legsLinked fun r y hy => hun r y.auction (Ledger.market_auctions hy)

/-- An answer takes every quote of the request off the book, whichever answer it is. -/
theorem Sane.closes (h : e.Sane) (hp : e.market.Sited) (hy : e.ledger.request r = some y)
    (hstate : y.state = .settling nonce deadline) (hterminal : status.isTerminal = true) :
    ∃ qs : List QuoteIdx, (∀ q, q ∈ qs ↔ Ledger.Won e.market r q) ∧
      ∀ q, (closeConsumedQuotes ((Ledger.CommitPhase.dischargeCommitted e.ledger r).2
        |>.modifyRequest r fun y => y.setState (answered status)) r).market.offers q =
          if q ∈ qs then none else e.market.offers q := by
  have ha := Ledger.market_auctions hy
  have hsettling : y.auction.IsSettling := ⟨nonce, deadline, hstate⟩
  cases status with
  | unknown => cases hterminal
  | pending => cases hterminal
  | settled => exact h.healthy.settleRequest_closes nonce (.withCapacity 0) hp ha hsettling
  | reverted =>
      rw [Ledger.closeConsumedQuotes_modifyRequest]
      exact h.healthy.failRequest_closes nonce (.withCapacity 0) hp ha hsettling

/-- An answered request's first leg has a head, and no stored quote is the request's. -/
theorem Sane.legs_dangle (h : e.Sane) (hp : e.market.Sited) (hf : e.market.Filled)
    (hresolve : resolveNonce e.ledger nonce = some r) (hy : e.ledger.request r = some y)
    (hstate : y.state = .settling nonce deadline) (hterminal : status.isTerminal = true)
    (hroom : events.headroom (e.declared (.pollSettlement nonce status)) = true) :
    ¬ (e.pollSettlement nonce status now events).2.1.ledger.LegsLinked := by
  obtain ⟨b, heq⟩ := pollSettlement_of_settling now events hresolve hy hstate hterminal
  rw [heq, if_neg (by simp [hroom])]
  have ha := Ledger.market_auctions hy
  have hsettling : y.auction.IsSettling := ⟨nonce, deadline, hstate⟩
  obtain ⟨qs, hwon, hoffers⟩ := h.closes hp hy hstate hterminal
  generalize hl' : closeConsumedQuotes ((Ledger.CommitPhase.dischargeCommitted e.ledger r).2
    |>.modifyRequest r fun y => y.setState (answered status)) r = l' at hoffers
  -- before, the first leg's chain holds its winner at least
  have hlegs : 0 < y.legs.length := by
    have := List.length_pos_of_ne_nil (h.healthy.coherent.fair r _ ha).legs
    simpa [Request.auction] using this
  obtain ⟨leg, hleg⟩ : ∃ leg, y.legs[0]? = some leg := ⟨_, List.getElem?_eq_getElem hlegs⟩
  obtain ⟨chain, hchain, -⟩ := h.healthy.chained r _ (Ledger.book_requests hy)
    (by rw [show y.unlinked.state = y.state from rfl, hstate]; rfl) 0 leg hleg
  obtain ⟨q, o, ho, hr, hi, -⟩ := hf r _ ha hsettling 0 (by simpa [Request.auction] using hlegs)
  obtain ⟨x, hx, rfl⟩ := Ledger.quote_of_market ho
  have hmem : q ∈ chain := (hchain.mem q).mpr ⟨by simp, x, hx, hr, hi⟩
  obtain ⟨index, hhead⟩ : ∃ index, leg.quotesHead = some index := by
    cases chain with
    | nil => cases hmem
    | cons p rest => exact ⟨p.index, hchain.path.1⟩
  -- after, the head is the same
  have hlegs' : (l'.request r).map Request.legs = some y.legs := by
    rw [← hl', show ∀ l, (closeConsumedQuotes l r).request r = l.request r from fun l =>
      congrArg (fun s => Slab.get s r) (Ledger.requests_closeQuotes _)]
    have := h.healthy.legs_dischargeCommitted ha hsettling r
    rw [Ledger.request_modifyRequest, if_pos rfl, Option.map_map]
    rw [hy] at this
    exact this
  obtain ⟨y', hy', hsame⟩ := Option.map_eq_some_iff.mp hlegs'
  intro hlinked
  obtain ⟨p, x', -, hx', hr', -⟩ := hlinked.linked r y' 0 leg index hy'
    (by rw [Request.leg, hsame]; exact hleg) (by rw [← hhead]; exact .head)
  -- a quote stored for the request would be one of the winners closed
  have ho' := (hoffers p).symm.trans (Ledger.market_offers hx')
  split at ho'
  · cases ho'
  next hnot =>
    exact hnot ((hwon p).mpr (h.healthy.won_of_settling hp ha hsettling ho' hr'))

/-- Whatever run it ends, an input that answers leaves a stored request whose links dangle. -/
theorem Reachable.legs_dangle (h : Reachable config e) (hconcludes : e.Concludes input) :
    ¬ (e.step input).ledger.LegsLinked := by
  have hn := (sane_of_reachable h).normalised input.command input.now
  obtain ⟨r, y, d, status, hcommand, hterminal, hy, hstate, hroom⟩ :=
    concludes_congr hn.auctions hconcludes
  obtain ⟨command, now, capacity⟩ := input
  obtain rfl : command = _ := hcommand
  have hresolve : resolveNonce (e.normaliseAll (e.touchedAccounts
      (.pollSettlement (Nonce.of r) status)) now).ledger (Nonce.of r) = some r :=
    Ledger.resolveNonce_eq_some.mpr ⟨rfl, by rw [hy]; rfl⟩
  exact hn.sane.legs_dangle (hn.sited h.sited) (hn.filled h.filled) hresolve hy hstate hterminal
    (by simpa [EventBuffer.headroom, EventBuffer.withCapacity] using hroom)

-- ============================================================================
-- Runs
-- ============================================================================

theorem unanswered_new (h : Engine.new config = .ok e) : e.market.Unanswered := by
  obtain ⟨-, rfl⟩ := new_eq_ok h
  intro r a ha
  cases (congrFun (market_new config).2.1 r).symm.trans ha

/-- The links of every stored request are in order in every state of a run exactly when no
    settlement is answered in it. -/
theorem legs_linked_iff (h : Engine.new config = .ok e) (inputs : List Input) :
    (∀ k, (e.run (inputs.take k)).ledger.LegsLinked) ↔
      ∀ k input, inputs[k]? = some input → ¬ (e.run (inputs.take k)).Concludes input := by
  have hnew : Reachable config e := .new h
  constructor
  · intro hlinked k input hk hconcludes
    refine (hnew.run (inputs.take k)).legs_dangle hconcludes ?_
    rw [← run_take_succ _ hk]
    exact hlinked (k + 1)
  · intro hnot k
    have hun : (e.run (inputs.take k)).market.Unanswered := by
      induction k with
      | zero => exact unanswered_new h
      | succ k ih =>
          cases hk : inputs[k]? with
          | none =>
              rw [List.take_add_one, hk, Option.toList_none, List.append_nil]
              exact ih
          | some input =>
              rw [run_take_succ _ hk]
              exact (sane_of_reachable (hnew.run _)).unanswered_step ih (hnot k input hk)
    exact (sane_of_reachable (hnew.run _)).legsLinked hun

/-- A small venue before anything is accepted. -/
theorem legs_linked_iff_standing : standing.ledger.LegsLinked := by
  have hnew : Engine.new Config.small = .ok ⟨Config.small, Ledger.new Config.small, 0⟩ := rfl
  refine (legs_linked_iff hnew standingInputs).mpr (fun k input hk hconcludes => ?_) 5
  obtain ⟨r, y, d, status, hcommand, -⟩ := hconcludes
  have hquiet : ∀ input ∈ standingInputs, ∀ nonce status,
      input.command ≠ .pollSettlement nonce status := by simp [standingInputs]
  exact hquiet input (List.mem_of_getElem? hk) _ _ hcommand

/-- The standing quote is accepted and settled, and its slot reissued to a second request. -/
def reissued : Engine :=
  standing.run [⟨.acceptRequest ⟨0, 0⟩ [⟨0, 600000⟩], 3, 8⟩,
    ⟨.pollSettlement ⟨0, 0⟩ .settled, 4, 8⟩, ⟨.creditAccount 0 9000000, 5, 8⟩,
    ⟨.creditAccount 1 9000000, 5, 8⟩, ⟨.submitRequest 0 50 [⟨0, .yes, 2, 900000⟩], 5, 8⟩,
    ⟨.submitQuote 1 ⟨1, 0⟩ 0 600000 2 40, 6, 8⟩]

/-- The first request's leg leads to the second request's quote. -/
theorem settled_leg_dangles :
    ¬ ∀ (config : Config) (e : Engine), Reachable config e → e.ledger.LegsLinked := by
  intro hlinked
  have hreachable : Reachable Config.small reissued := reachable_standing.run _
  obtain ⟨y, hy⟩ : ∃ y, reissued.ledger.request ⟨0, 0⟩ = some y :=
    Option.isSome_iff_exists.mp (by decide +kernel)
  have hleg : (reissued.ledger.request ⟨0, 0⟩).bind (fun y => y.leg 0) =
      some ⟨0, .yes, 2, 900000, some 0, 1, some 600000⟩ := by decide +kernel
  rw [hy] at hleg
  have hwalk : (reissued.ledger.walkFrom 1 (some 0)).map (fun v => v.2.request) = [⟨1, 0⟩] := by
    decide +kernel
  obtain ⟨v, hv, hrequest⟩ := List.mem_map.mp (hwalk ▸ List.mem_singleton_self _)
  have hown := ((hlinked _ _ hreachable).walked ⟨0, 0⟩ y 0 _ 1 hy hleg v hv).1
  rw [hrequest] at hown
  exact absurd hown (by decide)

end Engine

end RfqSettlement
