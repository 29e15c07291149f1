/-
  RfqSettlement.Core.Defences

  The refusals of an accept that no run comes to.

  An open request before its deadline holds a claim of exactly `size × limit` over its
  legs, and no selection fills a leg above its limit.  So the total of a plan fits 64 bits
  and the claim covers it, whatever the plan; and no quote on a leg is too small for it.
-/

import RfqSettlement.Core.BestExecution

namespace RfqSettlement

/-- The refusals an accept only defends itself with. -/
def EngineError.isDefence : EngineError → Bool
  | .amountOverflow | .reservationShortfall | .unknownQuote | .unknownLeg => true
  | .noEligibleQuote _ reason => decide (reason = .sizeTooSmall)
  | _ => false

namespace Engine

variable {e : Engine} {r : ReqIdx} {y : Request} {i now k last total : Nat} {leg : Leg} {legs : List Leg}
  {expected : List ExpectedFill} {plan : List Selection} {config : Config}

/-- PLAN within a budget that covers every limit: it is refused for a quote or a view that
    is not there, or comes out within the budget. -/
theorem planAccept_bounded (e : Engine) (now k total : Nat) (legs : List Leg)
    (expected : List ExpectedFill) (plan : List Selection)
    (hbudget : total + (legs.map fun leg => leg.size * leg.limit).sum ≤ u64Max)
    (hlimit : ∀ leg ∈ legs, ∀ sel, e.ledger.bestOnLeg leg now = .ok sel → sel.price ≤ leg.limit)
    (hsize : ∀ leg ∈ legs, e.ledger.bestOnLeg leg now ≠ .error .sizeTooSmall) :
    (∃ err, e.planAccept now k legs expected plan total = .error err ∧ err.isDefence = false) ∨
    ∃ plan' total', e.planAccept now k legs expected plan total = .ok (plan', total') ∧
      total' ≤ total + (legs.map fun leg => leg.size * leg.limit).sum := by
  induction legs generalizing k expected plan total with
  | nil => exact .inr ⟨plan, total, rfl, by simp⟩
  | cons leg legs ih =>
      rw [List.map_cons, List.sum_cons] at hbudget
      unfold Engine.planAccept
      cases hbest : e.ledger.bestOnLeg leg now with
      | error reason =>
          refine .inl ⟨_, rfl, decide_eq_false fun hreason => ?_⟩
          exact hsize leg (by simp) (hreason ▸ hbest)
      | ok sel =>
      cases expected with
      | nil => exact .inl ⟨_, rfl, rfl⟩
      | cons view expected =>
      dsimp only
      by_cases hview : view.leg = k
      · rw [if_neg (by simpa using hview)]
        by_cases hdear : view.price < sel.price
        · rw [if_pos hdear]
          exact .inl ⟨_, rfl, rfl⟩
        rw [if_neg hdear]
        have hle : leg.size * sel.price ≤ leg.size * leg.limit :=
          Nat.mul_le_mul_left _ (hlimit leg (by simp) sel hbest)
        have hsum : (Size.requesterContribution leg.size sel.price).bind
            (fun cost => checkedAdd total cost) = some (total + leg.size * sel.price) := by
          refine Option.bind_eq_some_iff.mpr ⟨leg.size * sel.price, ?_, ?_⟩
          · exact Size.checkedMul_eq_some.mpr ⟨by omega, rfl⟩
          · exact checkedAdd_eq_some.mpr ⟨by omega, rfl⟩
        simp only [hsum]
        rcases ih (k + 1) (total + leg.size * sel.price) expected (plan ++ [sel]) (by omega)
            (fun leg' hleg' => hlimit leg' (by simp [hleg']))
            (fun leg' hleg' => hsize leg' (by simp [hleg'])) with
          ⟨err, heq, herr⟩ | ⟨plan', total', heq, htotal⟩
        · exact .inl ⟨err, heq, herr⟩
        · refine .inr ⟨plan', total', heq, ?_⟩
          rw [List.map_cons, List.sum_cons]
          omega
      · rw [if_pos hview]
        exact .inl ⟨_, rfl, rfl⟩

/-- What the limits of a request's legs come to fits 64 bits. -/
theorem Sane.budget_le (h : e.Sane) (hr : e.ledger.request r = some y) :
    (y.legs.map fun leg => leg.size * leg.limit).sum ≤ u64Max := by
  have hfits := (h.healthy.coherent.fair r _ (Ledger.market_auctions hr)).fits
  rw [Auction.total, Request.auction, List.map_map] at hfits
  exact hfits

/-- A scan never ends with nothing but quotes too small for the leg. -/
theorem Sane.bestOnLeg_ne_sizeTooSmall (h : e.Sane) (hnum : e.Numbered)
    (hr : e.ledger.request r = some y) (hopened : y.state = .opened) (hleg : leg ∈ y.legs) (now : Nat) :
    e.ledger.bestOnLeg leg now ≠ .error .sizeTooSmall := by
  intro hsmall
  obtain ⟨i, hi⟩ := List.mem_iff_getElem?.mp hleg
  have hbest := h.bestOf hnum hr hopened hi now
  rw [hsmall] at hbest
  cases hbest

theorem Sane.price_le_limit {sel : Selection} (h : e.Sane) (hr : e.ledger.request r = some y)
    (hopened : y.state = .opened) (hleg : leg ∈ y.legs) (hsel : e.ledger.bestOnLeg leg now = .ok sel) :
    sel.price ≤ leg.limit := by
  obtain ⟨i, hi⟩ := List.mem_iff_getElem?.mp hleg
  obtain ⟨f, rfl, -, -, -, hle, -⟩ := h.healthy.bestOnLeg hr hopened hi hsel
  exact hle

/-- PLAN and CHECK of an accept, on an engine whose live requests hold their claims. -/
theorem Sane.checkAccept_not_defence {err : EngineError} (events : EventBuffer) (h : e.Sane)
    (hbacked : e.market.Backed now)
    (hsize : ∀ y, e.ledger.request r = some y → y.state = .opened → ∀ leg ∈ y.legs,
      e.ledger.bestOnLeg leg now ≠ .error .sizeTooSmall)
    (herr : e.checkAccept r expected now events = .error err) : err.isDefence = false := by
  unfold Engine.checkAccept at herr
  split at herr
  · cases herr
    rfl
  next y hr =>
  split at herr
  · cases herr
    rfl
  next hopened =>
  have hopened : y.state = .opened := by simpa using hopened
  split at herr
  · cases herr
    rfl
  next hlive =>
  split at herr
  · cases herr
    rfl
  rcases planAccept_bounded e now 0 0 y.legs expected [] (by simpa using h.budget_le hr)
      (fun leg hleg sel hsel => h.price_le_limit hr hopened hleg hsel) (hsize y hr hopened) with
    ⟨err', heq, hno⟩ | ⟨plan, total, heq, htotal⟩
  · rw [heq] at herr
    obtain rfl := Except.error.inj herr
    exact hno
  rw [heq] at herr
  -- from here on only the room for events can be missing
  obtain ⟨c, hclaim⟩ := h.claim_of_opened hbacked hr hopened (by omega)
  obtain ⟨res, hres, hamount⟩ := h.claim_covers hr hopened hclaim
  dsimp only at herr
  rw [hclaim] at herr
  dsimp only at herr
  rw [hres] at herr
  dsimp only at herr
  rw [if_neg (by omega)] at herr
  split at herr
  · cases herr
    rfl
  obtain ⟨fills, hmap, rfl, -, -, hwins⟩ := h.healthy.planAccept (i := 0) hr hopened
    (fun j leg hj => by rw [Nat.zero_add]; exact hj) (Nat.zero_le _) heq
  have hbuild := Ledger.buildIntent_eq (l := e.ledger) hmap fun f hf => by
    obtain ⟨j, hj⟩ := List.mem_iff_getElem?.mp hf
    exact (hwins j f hj).stored
  rw [List.nil_append, hbuild] at herr
  cases herr

/-- What the fills of a list of quotes cost, leg by leg. -/
def fillCost (legs : List Leg) (fills : List Quote) : Nat :=
  (List.zipWith (fun leg x => leg.size * x.price) legs fills).sum

/-- Fills within their limits cost no more than the limits do. -/
theorem fillCost_le {fills : List Quote}
    (hlimit : ∀ (i : Nat) leg x, legs[i]? = some leg → fills[i]? = some x → x.price ≤ leg.limit) :
    fillCost legs fills ≤ (legs.map fun leg => leg.size * leg.limit).sum := by
  induction legs generalizing fills with
  | nil => simp [fillCost]
  | cons leg legs ih =>
      cases fills with
      | nil => simp [fillCost]
      | cons x fills =>
          have hfirst : leg.size * x.price ≤ leg.size * leg.limit :=
            Nat.mul_le_mul_left _ (hlimit 0 leg x rfl rfl)
          have hrest := @ih fills fun i leg' x' hleg hx => hlimit (i + 1) leg' x' hleg hx
          show leg.size * x.price + fillCost legs fills ≤ _
          rw [List.map_cons, List.sum_cons]
          omega

/-- In every run at instants that never go back no accept is refused by one of its
    defences; an open request before its deadline holds its claim, which covers every
    selection of eligible quotes, one a leg, and fits 64 bits. -/
theorem defences_unreachable (h : ReachableAt config last e) :
    (∀ input r expected err, input.command = .acceptRequest r expected → last ≤ input.now →
      (e.answer input).1 = .error err → err.isDefence = false) ∧
    ∀ now r y, last ≤ now → e.ledger.request r = some y → y.state = .opened → now < y.deadline →
      ∃ c res, y.claim = some c ∧ e.ledger.reservation c = some res ∧ res.amount ≤ u64Max ∧
        ∀ fills : List Quote, (∀ (i : Nat) leg x, y.leg i = some leg → fills[i]? = some x →
          x.isEligible leg now = true) → fillCost y.legs fills ≤ res.amount := by
  refine ⟨fun input r expected err hcommand hnow herr => ?_, fun now r y hnow hr hopened hlive => ?_⟩
  · have hn : (e.normalisedFor input).Sane := (h.sane.normalised input.command input.now).sane
    have hanswer : e.answer input = (e.normalisedFor input).acceptRequest r expected input.now
        (.withCapacity input.capacity) := by
      rw [Engine.answer, Engine.apply, normalisedFor, hcommand]
      rfl
    rw [hanswer, acceptRequest] at herr
    split at herr
    next err' hcheck =>
      obtain rfl : err' = err := by simpa [refuse] using herr
      refine hn.checkAccept_not_defence _ (h.backed_normalisedFor input hnow) ?_ hcheck
      intro y hy hopened leg hleg
      rw [h.sane.bestOnLeg_normalisedFor input leg input.now]
      obtain ⟨y₀, hy₀, hbare⟩ := (h.sane.sameRecords_normalisedFor input).request hy
      have hstate : y.state = y₀.state := congrArg (fun y => y.state) hbare
      have hlegs : y.legs = y₀.legs := congrArg (fun y => y.legs) hbare
      exact h.sane.bestOnLeg_ne_sizeTooSmall (numbered_of_reachable h.reachable) hy₀
        (hstate.symm.trans hopened) (hlegs ▸ hleg) input.now
    next acc hcheck => cases herr
  · obtain ⟨c, hclaim⟩ := h.sane.claim_of_opened (h.backed.mono hnow) hr hopened hlive
    obtain ⟨res, hres, hamount⟩ := h.sane.claim_covers hr hopened hclaim
    refine ⟨c, res, hclaim, hres, hamount ▸ h.sane.budget_le hr, fun fills heligible => ?_⟩
    rw [hamount]
    refine fillCost_le fun i leg x hleg hx => ?_
    obtain ⟨-, -, -, hprice⟩ := Quote.isEligible_iff.mp (heligible i leg x hleg hx)
    exact hprice

/-- The claim of the basket of two legs covers the dearest quotes of both. -/
theorem defences_unreachable_crowded : ∃ c res,
    crowded.ledger.reservation c = some res ∧
      fillCost [crowdedLeg, crowdedSecond]
        [Quote.new 3 ⟨0, 0⟩ 0 580000 2 30 2, Quote.new 2 ⟨0, 0⟩ 1 500000 1 44 4] ≤ res.amount := by
  obtain ⟨c, res, -, hres, -, hcovers⟩ := (defences_unreachable reachableAt_crowded).2 5 ⟨0, 0⟩ _
    (by decide) crowded_request rfl (by decide)
  refine ⟨c, res, hres, hcovers _ fun i leg x hleg hx => ?_⟩
  match i with
  | 0 =>
      obtain rfl : crowdedLeg = leg := Option.some.inj hleg
      obtain rfl : Quote.new 3 ⟨0, 0⟩ 0 580000 2 30 2 = x := Option.some.inj hx
      decide
  | 1 =>
      obtain rfl : crowdedSecond = leg := Option.some.inj hleg
      obtain rfl : Quote.new 2 ⟨0, 0⟩ 1 500000 1 44 4 = x := Option.some.inj hx
      decide
  | i + 2 => cases hx

end Engine

end RfqSettlement
