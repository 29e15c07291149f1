/-
  RfqSettlement.Core.Standing

  A standing quote is a promise.  As long as its request is open, a maker's quote
  can only give way to one of the maker's own that is no worse: no dearer, and no
  shorter lived.  `submit_quote` checks the first and not the second, and it
  withdraws the standing quote before it knows that the new one can be reserved;
  `Improves` is the condition under which neither matters.
-/

import RfqSettlement.Core.Refusals

namespace RfqSettlement

namespace Engine

open Ledger (Healthy QuoteChecked Affords CanOpenQuote)

variable {e : Engine} {input : Input} {now maker i price expiry : Nat} {r : ReqIdx}
  {config : Config}

-- ============================================================================
-- What a maker holds
-- ============================================================================

/-- `maker` has an active quote on the leg, at `price` or better and until `expiry`
    or later. -/
def Holds (l : Ledger) (maker : Nat) (r : ReqIdx) (i price expiry : Nat) : Prop :=
  ∃ q x, l.quote q = some x ∧ x.maker = maker ∧ x.request = r ∧ x.leg = i ∧ x.state = .active ∧
    x.price ≤ price ∧ expiry ≤ x.expiresAt

/-- `maker` has a live quote on the leg, at `price` or better, with the claim it
    is backed by: reserved, and exactly the maker's contribution. -/
def HoldsBacked (l : Ledger) (now maker : Nat) (r : ReqIdx) (i price : Nat) : Prop :=
  ∃ q x c k leg, l.quote q = some x ∧ x.maker = maker ∧ x.request = r ∧ x.leg = i ∧
    x.isLiveAt now = true ∧ x.price ≤ price ∧
    (l.request r).bind (fun y => y.leg i) = some leg ∧
    x.claim = some c ∧ l.reservation c = some k ∧ k.isCommitted = false ∧
    k.amount = leg.size * (UNIT - x.price)

/-- A live quote of a run at instants that never go back has its claim. -/
theorem ReachableAt.holdsBacked (h : ReachableAt config now e)
    (hholds : Holds e.ledger maker r i price expiry) (hnow : now < expiry) :
    HoldsBacked e.ledger now maker r i price := by
  obtain ⟨q, x, hx, hmaker, hr, hi, hactive, hprice, hexpiry⟩ := hholds
  have hsane := h.sane
  have ho := Ledger.market_offers hx
  have hlive : now < x.expiresAt := by omega
  obtain ⟨c, k, hk, howner⟩ := h.backed.offers q x.offer ho hactive hlive
  obtain ⟨res, hres, rfl⟩ := Ledger.reservation_of_market hk
  obtain ⟨o, spec, ho', hspec, hback⟩ := hsane.healthy.coherent.offered c _ q hk howner
  rw [ho, Option.some.injEq] at ho'
  subst ho'
  rw [Ledger.legOf_market] at hspec
  obtain ⟨leg, hleg, rfl⟩ := Option.map_eq_some_iff.mp hspec
  have hheld := hsane.healthy.intact.balanced.held c _ (Ledger.book_claims hres)
  rw [Ledger.ownerClaim_book, howner] at hheld
  have hclaim : x.claim = some c := by simpa [Ledger.ownerClaim, hx] using hheld
  have hreserved : res.isCommitted = false := by
    obtain ⟨s, hs⟩ := hsane.healthy.reserved_of_active hx hactive hclaim hk
    exact Reservation.isCommitted_eq_false.mpr ⟨s, hs⟩
  refine ⟨q, x, c, res, leg, hx, hmaker, hr, hi, ?_, hprice, ?_, hclaim, hres, hreserved,
    hback.amount⟩
  · simpa [Quote.isLiveAt] using ⟨hactive, hlive⟩
  · rw [← hr, ← hi]
    exact hleg

-- ============================================================================
-- One step
-- ============================================================================

/-- A submission does not replace a live quote by one that dies earlier, nor by one
    the ledger will refuse. -/
def Improves (e : Engine) (input : Input) : Prop :=
  ∀ maker r i price size expiresAt q x y leg amount,
    input.command = .submitQuote maker r i price size expiresAt →
    QuoteChecked (e.normalisedFor input) maker r i price size expiresAt input.now
      (.withCapacity input.capacity) (some q) amount y leg →
    (e.normalisedFor input).ledger.quote q = some x → input.now < x.expiresAt →
    x.expiresAt ≤ expiresAt ∧ Affords (e.normalisedFor input).ledger maker q x amount

theorem holds_iff {l : Ledger} : Holds l maker r i price expiry ↔
    ∃ q o, l.market.offers q = some o ∧ o.maker = maker ∧ o.request = r ∧ o.leg = i ∧
      o.state = .active ∧ o.price ≤ price ∧ expiry ≤ o.expiresAt := by
  constructor
  · rintro ⟨q, x, hx, hrest⟩
    exact ⟨q, x.offer, Ledger.market_offers hx, hrest⟩
  · rintro ⟨q, o, ho, hrest⟩
    obtain ⟨x, hx, rfl⟩ := Ledger.quote_of_market ho
    exact ⟨q, x, hx, hrest⟩

/-- Any command but a quote keeps what a maker holds, while the request stays
    open. -/
theorem Sane.holds_perform {command : Command} {events : EventBuffer} (h : e.Sane)
    (hcommand : ∀ maker r leg price size expiresAt,
      command ≠ .submitQuote maker r leg price size expiresAt)
    (hopened : ∃ a, (e.perform command now events).2.1.market.auctions r = some a ∧
      a.state = .opened)
    (hholds : Holds e.ledger maker r i price expiry) :
    Holds (e.perform command now events).2.1.ledger maker r i price expiry := by
  obtain ⟨q, o, ho, hmaker, hr, hi, hactive, hrest⟩ := holds_iff.mp hholds
  obtain ⟨scope, hfor, hadv⟩ := h.perform
  have hmax : e.config.maxQuotesPerLeg ≤ MAX_QUOTES_PER_LEG := h.config.quotesPerLeg
  rcases hadv.steps.offer ho with ho' | hwithdraws | ⟨-, hconsumed⟩
  · exact holds_iff.mpr ⟨q, o, ho', hmaker, hr, hi, hactive, hrest⟩
  · cases command with
    | submitQuote => exact absurd rfl (hcommand _ _ _ _ _ _)
    | rejectRequest r' =>
        have hr' : o.request = r' := by
          have hfor : scope = .rejecting r' := hfor
          rw [hfor] at hwithdraws
          exact hwithdraws
        obtain rfl : r = r' := hr.symm.trans hr'
        rcases h.healthy.rejectRequest (r := r) hmax with
          ⟨err, heq⟩ | ⟨w', heq, -, a, ha, hrejected⟩
        · rw [Engine.perform, heq]
          exact hholds
        · obtain ⟨a', ha', hopened⟩ := hopened
          rw [Engine.perform, heq] at ha'
          rw [show w'.1.market.auctions r = some a' from ha', Option.some.injEq] at ha
          rw [← ha, hopened] at hrejected
          cases hrejected
    | acceptRequest r' expected =>
        have hr' : o.request = r' := by
          have hfor : scope = .filling r' := hfor
          rw [hfor] at hwithdraws
          exact hwithdraws
        obtain rfl : r = r' := hr.symm.trans hr'
        rcases h.healthy.acceptRequest (r := r)
          rfl hmax with ⟨err, heq⟩ | ⟨acc, fills, w', heq, -, hacc⟩
        · rw [Engine.perform, heq]
          exact hholds
        · obtain ⟨a', ha', hopened⟩ := hopened
          obtain ⟨deadline, ha⟩ := hacc.settling
          rw [Engine.perform, heq] at ha'
          rw [show w'.1.market.auctions r = some a' from ha', Option.some.injEq] at ha
          rw [ha] at hopened
          cases hopened
    | pollSettlement nonce status =>
        rcases hfor with rfl | ⟨r', rfl, -⟩ <;> cases hwithdraws
    | _ =>
        obtain rfl := hfor
        cases hwithdraws
  · rw [hactive] at hconsumed
    cases hconsumed

/-- A submission that improves on what it replaces keeps what every maker holds. -/
theorem Sane.holds_submitQuote {maker' i' price' size' expiresAt' : Nat} {r' : ReqIdx}
    {events : EventBuffer} (h : e.Sane) (hnow : now < expiry)
    (himproves : ∀ q x y leg amount,
      QuoteChecked e maker' r' i' price' size' expiresAt' now events (some q) amount y leg →
        e.ledger.quote q = some x → now < x.expiresAt →
          x.expiresAt ≤ expiresAt' ∧ Affords e.ledger maker' q x amount)
    (hholds : Holds e.ledger maker r i price expiry) :
    Holds (e.submitQuote maker' r' i' price' size' expiresAt' now events).2.1.ledger
      maker r i price expiry := by
  obtain ⟨q, x, hx, hmaker, hr, hi, hactive, hprice, hexpiry⟩ := hholds
  have ho := Ledger.market_offers hx
  rcases h.healthy.submitQuote (r := r') (i := i')
    rfl
    h.config.quotesPerLeg with
    ⟨err, heq⟩ | ⟨standing, contribution, y, leg, w₁, hc, hw, hout⟩
  · rw [heq]
    exact ⟨q, x, hx, hmaker, hr, hi, hactive, hprice, hexpiry⟩
  -- the quote survives unless it is the one being replaced
  have hkeeps : ∀ {w' : Work}, Market.Steps now (Ledger.replacementScope standing) e.ledger.market
      w'.1.market → standing ≠ some q → Holds w'.1 maker r i price expiry := by
    intro w' hsteps hne
    refine holds_iff.mpr ⟨q, x.offer, ?_, hmaker, hr, hi, hactive, hprice, hexpiry⟩
    rcases hsteps.offer ho with ho' | hwithdraws | ⟨-, hconsumed⟩
    · exact ho'
    · cases standing with
      | none => cases hwithdraws
      | some q' => exact absurd (congrArg some (Eq.symm hwithdraws)) hne
    · rw [show x.offer.state = x.state from rfl, hactive] at hconsumed
      cases hconsumed
  rcases hout with ⟨hcant, err, arrival, heq⟩ | ⟨-, w', arrival, heq, hcarried, ⟨q', hq'⟩, -⟩
  · rw [heq]
    refine hkeeps hw.carried.steps fun hstanding => ?_
    subst hstanding
    obtain ⟨x', held, hx', hret, -⟩ := hw.retired q rfl
    obtain ⟨x'', hx'', hmaker', -⟩ := h.healthy.standing (q := q) hc.request
      hc.opened hc.found hc.located.symm
    have hx' : e.ledger.quote q = some x' := hx'
    rw [hx, Option.some.injEq] at hx' hx''
    subst hx' hx''
    obtain ⟨-, hroom⟩ := himproves q x y leg contribution hc hx (by omega)
    exact hcant ((Ledger.canOpenQuote_retired h.healthy hx hmaker' hret).mpr hroom)
  · rw [heq]
    by_cases hstanding : standing = some q
    · subst hstanding
      obtain ⟨x', hx', hmaker', honleg⟩ := h.healthy.standing (q := q) hc.request
        hc.opened hc.found hc.located.symm
      rw [hx, Option.some.injEq] at hx'
      subst hx'
      obtain ⟨hlonger, -⟩ := himproves q x y leg contribution hc hx (by omega)
      have hbetter := hc.better q x rfl hx
      refine holds_iff.mpr ⟨q', _, hq', hmaker'.symm.trans hmaker, ?_, ?_, rfl,
        hbetter.trans hprice, hexpiry.trans hlonger⟩
      · exact honleg.request.symm.trans hr
      · exact honleg.leg.symm.trans hi
    · exact hkeeps (hw.carried.steps.trans hcarried.steps) hstanding

/-- One step that improves keeps what every maker holds on an open request. -/
theorem Sane.holds_step (h : e.Sane) (himproves : e.Improves input) (hnow : input.now < expiry)
    (hopened : ∃ y, (e.step input).ledger.request r = some y ∧ y.state = .opened)
    (hholds : Holds e.ledger maker r i price expiry) :
    Holds (e.step input).ledger maker r i price expiry := by
  have hn := h.normalised input.command input.now
  have hholds' : Holds (e.normalisedFor input).ledger maker r i price expiry := by
    rw [holds_iff] at hholds ⊢
    rwa [show (e.normalisedFor input).ledger.market.offers = e.ledger.market.offers from hn.offers]
  obtain ⟨command, now, capacity⟩ := input
  by_cases hquote : ∃ maker r i price size expiresAt,
      command = .submitQuote maker r i price size expiresAt
  · obtain ⟨maker', r', i', price', size', expiresAt', rfl⟩ := hquote
    exact hn.sane.holds_submitQuote hnow
      (fun q x y leg amount => himproves maker' r' i' price' size' expiresAt' q x y leg amount rfl)
      hholds'
  · obtain ⟨y, hy, hopened⟩ := hopened
    exact hn.sane.holds_perform (fun maker r i price size expiresAt heq =>
      hquote ⟨maker, r, i, price, size, expiresAt, heq⟩) ⟨_, Ledger.market_auctions hy, hopened⟩
      hholds'

-- ============================================================================
-- Runs
-- ============================================================================

/-- A stored request that is open after a step was open before it. -/
theorem Sane.opened_of_step {a : Auction} (h : e.Sane) (ha : e.market.auctions r = some a)
    (hopened : ∃ a', (e.step input).market.auctions r = some a' ∧ a'.state = .opened) :
    a.state = .opened := by
  obtain ⟨scope, -, hadv⟩ := h.apply input.command input.now (.withCapacity input.capacity)
  obtain ⟨st, hst, hmoves⟩ := hadv.steps.auction ha
  obtain ⟨a', ha', hopened⟩ := hopened
  rw [show (e.step input).market.auctions r = _ from hst, Option.some.injEq] at ha'
  have hst : st = .opened := (congrArg Auction.state ha').trans hopened
  rcases hmoves with heq | hmoves
  · rw [← heq, hst]
  · generalize a.state = s at hmoves
    subst hst
    cases hmoves with
    | resolve _ h => rcases h with h | h <;> cases h

/-- A stored request stays stored. -/
theorem Sane.auction_step {a : Auction} (h : e.Sane) (ha : e.market.auctions r = some a) :
    ∃ a', (e.step input).market.auctions r = some a' := by
  obtain ⟨scope, -, hadv⟩ := h.apply input.command input.now (.withCapacity input.capacity)
  obtain ⟨st, hst, -⟩ := hadv.steps.auction ha
  exact ⟨_, hst⟩

/-- A stored request that is open at the end of a run was open all along. -/
theorem Sane.opened_of_run {a : Auction} {inputs : List Input} (h : e.Sane)
    (ha : e.market.auctions r = some a)
    (hopened : ∃ a', (e.run inputs).market.auctions r = some a' ∧ a'.state = .opened) :
    a.state = .opened := by
  induction inputs generalizing e a with
  | nil =>
      obtain ⟨a', ha', hopened⟩ := hopened
      rw [show e.market.auctions r = some a' from ha', Option.some.injEq] at ha
      exact ha ▸ hopened
  | cons input inputs ih =>
      obtain ⟨a', ha'⟩ := h.auction_step ha
      obtain ⟨scope, -, hadv⟩ := h.apply input.command input.now (.withCapacity input.capacity)
      exact h.opened_of_step ha ⟨a', ha', ih hadv.sane ha' hopened⟩

/-- In every run whose submissions improve on what they replace, what a maker
    holds on a request that is still open is still held, until it expires. -/
theorem ReachableAt.holds_run {inputs : List Input} (h : ReachableAt config now e)
    (hpaced : Paced Improves now e inputs) (hlast : lastInstant now inputs < expiry)
    (hopened : ∃ y, (e.run inputs).ledger.request r = some y ∧ y.state = .opened)
    (hholds : Holds e.ledger maker r i price expiry) :
    Holds (e.run inputs).ledger maker r i price expiry := by
  induction inputs generalizing e now with
  | nil => exact hholds
  | cons input inputs ih =>
      obtain ⟨hnow, himproves, hpaced⟩ := hpaced
      have hstep := h.step input hnow
      refine ih hstep hpaced hlast hopened (h.sane.holds_step himproves ?_ ?_ hholds)
      · exact (hpaced.le_lastInstant).trans_lt hlast
      · obtain ⟨q, o, ho, -, hr, -⟩ := holds_iff.mp hholds
        obtain ⟨leg, hleg, -⟩ := h.sane.healthy.coherent.offer q o ho
        obtain ⟨a, ha, -⟩ := Option.bind_eq_some_iff.mp hleg
        rw [hr] at ha
        obtain ⟨a', ha'⟩ := h.sane.auction_step ha
        obtain ⟨y, hy, hopened⟩ := hopened
        obtain ⟨y', hy', rfl⟩ := Ledger.request_of_market ha'
        exact ⟨y', hy', hstep.sane.opened_of_run ha' ⟨_, Ledger.market_auctions hy, hopened⟩⟩

/-- A live quote is irrevocable, in every run whose submissions improve on what
    they replace. -/
theorem ReachableAt.quote_persists {inputs : List Input} {q : QuoteIdx} {x : Quote}
    (h : ReachableAt config now e) (hx : e.ledger.quote q = some x) (hlive : x.isLiveAt now = true)
    (hpaced : Paced Improves now e inputs) (hlast : lastInstant now inputs < x.expiresAt)
    (hopened : ∃ y, (e.run inputs).ledger.request x.request = some y ∧ y.state = .opened) :
    HoldsBacked (e.run inputs).ledger (lastInstant now inputs) x.maker x.request x.leg x.price := by
  have hactive : x.state = .active := by
    simp only [Quote.isLiveAt, decide_eq_true_eq] at hlive
    exact hlive.1
  have hholds : Holds e.ledger x.maker x.request x.leg x.price x.expiresAt :=
    ⟨q, x, hx, rfl, rfl, rfl, hactive, Nat.le_refl _, Nat.le_refl _⟩
  exact (h.run inputs hpaced).holdsBacked (h.holds_run hpaced hlast hopened hholds) hlast

theorem reachableAt_standing : ReachableAt Config.small 2 standing :=
  have hnew : ReachableAt Config.small 0 ⟨Config.small, Ledger.new Config.small, 0⟩ := .new 0 rfl
  hnew.run standingInputs (show Paced (fun _ _ => True) 0 _ _ by simp [Paced, standingInputs])

/-- The cheaper and longer lived quote of maker 2 improves on the one it replaces. -/
theorem improves_crowded : Improves crowded ⟨.submitQuote 2 ⟨0, 0⟩ 0 530000 2 60, 5, 8⟩ := by
  rintro maker r i price size expiresAt q x y leg amount ⟨⟩ hc hx -
  have hnorm : (crowded.normalisedFor ⟨.submitQuote 2 ⟨0, 0⟩ 0 530000 2 60, 5, 8⟩).ledger =
      crowded.ledger := by decide +kernel
  rw [hnorm] at hx ⊢
  obtain rfl : crowdedLeg = leg := by
    have hrequest := hc.request
    rw [hnorm, crowded_request] at hrequest
    have hfound := hc.found
    rw [← Option.some.inj hrequest] at hfound
    exact Option.some.inj hfound
  have hlocated := hc.located
  rw [hnorm, show crowded.ledger.standingQuoteOf crowdedLeg 2 = some ⟨1, 0⟩ by decide +kernel]
    at hlocated
  obtain rfl := Option.some.inj hlocated
  have hstored : crowded.ledger.quote ⟨1, 0⟩ =
      some ⟨2, ⟨0, 0⟩, 0, 550000, 2, 45, 1, .active, none, some ⟨2, 0⟩⟩ := by decide +kernel
  obtain rfl := Option.some.inj (hstored.symm.trans hx)
  obtain rfl : amount = 940000 := hc.amount
  have hmaker : crowded.ledger.account 2 = some ⟨2000000, 1400000, 0, some 5, some 2⟩ := by
    decide +kernel
  have hheld : crowded.ledger.heldBy ⟨2, ⟨0, 0⟩, 0, 550000, 2, 45, 1, .active, none, some ⟨2, 0⟩⟩ =
      900000 := by decide +kernel
  refine ⟨by decide, ⟨⟨_, hmaker, ?_, ?_⟩, .inl (by decide +kernel), .inl (by decide +kernel)⟩⟩
  · rw [hheld]
    decide
  · rw [hheld]
    decide

/-- The quote of maker 2, after it was improved on. -/
theorem quote_persists_crowded :
    HoldsBacked (crowded.run [⟨.submitQuote 2 ⟨0, 0⟩ 0 530000 2 60, 5, 8⟩,
      ⟨.creditAccount 1 0, 39, 8⟩]).ledger 39 2 ⟨0, 0⟩ 0 550000 :=
  reachableAt_crowded.quote_persists (q := ⟨1, 0⟩)
    (x := ⟨2, ⟨0, 0⟩, 0, 550000, 2, 45, 1, .active, none, some ⟨2, 0⟩⟩) (by decide +kernel) rfl
    ⟨by decide, improves_crowded, by decide, by rintro _ _ _ _ _ _ _ _ _ _ _ ⟨⟩, trivial⟩
    (by decide) (by decide +kernel)

/-- A quote that would stand until 40 is replaced by one that dies at 10. -/
theorem replacement_shortens_life :
    ¬ ∀ (config : Config) (now : Nat) (e : Engine) (inputs : List Input) (q : QuoteIdx) (x : Quote),
      ReachableAt config now e → e.ledger.quote q = some x → x.isLiveAt now = true →
        Paced (fun _ _ => True) now e inputs → lastInstant now inputs < x.expiresAt →
          (∃ y, (e.run inputs).ledger.request x.request = some y ∧ y.state = .opened) →
            HoldsBacked (e.run inputs).ledger (lastInstant now inputs) x.maker x.request x.leg
              x.price := by
  intro h
  obtain ⟨q, x, -, -, -, hx, -, -, -, hlive, -⟩ := h Config.small 2 standing
    [⟨.submitQuote 1 ⟨0, 0⟩ 0 600000 2 10, 3, 8⟩, ⟨.creditAccount 1 800000, 20, 8⟩] ⟨0, 0⟩
    ⟨1, ⟨0, 0⟩, 0, 600000, 2, 40, 0, .active, none, some ⟨1, 0⟩⟩ reachableAt_standing
    (by decide +kernel) rfl (by simp [Paced]) (by decide) (by decide +kernel)
  have hdead : ∀ v ∈ (standing.run [⟨.submitQuote 1 ⟨0, 0⟩ 0 600000 2 10, 3, 8⟩,
      ⟨.creditAccount 1 800000, 20, 8⟩]).ledger.quotes.iter, v.2.isLiveAt 20 = false := by
    decide +kernel
  have hlive : x.isLiveAt 20 = true := hlive
  rw [hdead _ (Slab.mem_iter.mpr hx)] at hlive
  cases hlive

end Engine

end RfqSettlement
