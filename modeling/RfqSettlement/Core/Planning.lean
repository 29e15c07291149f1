/-
  RfqSettlement.Core.Planning

  PLAN and CHECK of an accept: what a selection is, and that an accept which
  passes its checks has a live, fitting winner for every leg, a total that is the
  exact cost of the fills, and an intent that says the same.
-/

import RfqSettlement.Core.Accepting

namespace RfqSettlement

/-- The leg of the intent a fill becomes. -/
def Fill.intentLeg (f : Fill) : IntentLeg :=
  ⟨f.leg.contract, f.leg.side, f.leg.size, f.offer.maker, f.offer.price, f.offer.expiresAt⟩

/-- What the requester pays for the fill. -/
def Fill.cost (f : Fill) : Nat := f.leg.size * f.offer.price

-- ============================================================================
-- Selection
-- ============================================================================

variable {leg : Leg} {now : Nat} {s : Scan} {best : Selection}

theorem Quote.isEligible_iff {q : Quote} :
    q.isEligible leg now = true ↔
      q.state = .active ∧ now < q.expiresAt ∧ leg.size ≤ q.size ∧ q.price ≤ leg.limit := by
  simp [Quote.isEligible, Quote.isLiveAt, and_assoc]

/-- One quote of the scan: it becomes the best, if it is eligible, or changes
    nothing of the best. -/
theorem Scan.best_visit {v : QuoteIdx × Quote} (h : (Scan.visit leg now s v).best = some best) :
    s.best = some best ∨
      v.1 = best.quote ∧ v.2.price = best.price ∧ v.2.isEligible leg now = true := by
  unfold Scan.visit at h
  dsimp only at h
  split at h
  · exact .inl h
  next hlive =>
  split at h
  · exact .inl h
  next hsize =>
  split at h
  · exact .inl h
  next hlimit =>
  split at h
  · rw [Option.some.injEq] at h
    subst h
    refine .inr ⟨rfl, rfl, ?_⟩
    simp only [Bool.not_eq_true', Bool.not_eq_false, Nat.not_lt] at hlive hsize hlimit
    simp [Quote.isEligible, hlive, hsize, hlimit]
  · exact .inl h

theorem Scan.best_foldl {vs : List (QuoteIdx × Quote)}
    (h : (vs.foldl (Scan.visit leg now) s).best = some best) :
    s.best = some best ∨
      ∃ v ∈ vs, v.1 = best.quote ∧ v.2.price = best.price ∧ v.2.isEligible leg now = true := by
  induction vs generalizing s with
  | nil => exact .inl h
  | cons v vs ih =>
      rcases ih h with hbest | ⟨v', hv', hrest⟩
      · rcases Scan.best_visit hbest with hbest | hv
        · exact .inl hbest
        · exact .inr ⟨v, by simp, hv⟩
      · exact .inr ⟨v', by simp [hv'], hrest⟩

namespace Ledger

variable {l : Ledger} {max i : Nat} {r : ReqIdx} {y : Request} {filled : Option ReqIdx}

/-- A selection is an eligible quote standing on the leg, at its own price. -/
theorem Healthy.bestOnLeg (h : l.Healthy max filled) (hr : l.request r = some y)
    (hopened : y.state = .opened) (hleg : y.leg i = some leg) (hbest : l.bestOnLeg leg now = .ok best) :
    ∃ f : Fill, f.selection = best ∧ Fits l.market r y.auction i f ∧ f.leg = leg.spec ∧
      now < f.offer.expiresAt ∧ f.offer.price ≤ leg.limit ∧
      ∃ x, l.quote f.quote = some x ∧ x.offer = f.offer := by
  unfold Ledger.bestOnLeg at hbest
  dsimp only at hbest
  split at hbest
  next b hb =>
    rw [Except.ok.injEq] at hbest
    subst hbest
    obtain ⟨qs, hchain, -, hwalk, hall⟩ := walkLeg_of_chained h.chained hr hopened hleg
    rcases Scan.best_foldl hb with hnone | ⟨v, hv, hquote, hprice, helig⟩
    · cases hnone
    obtain ⟨hactive, hlive, hsize, hlimit⟩ := Quote.isEligible_iff.mp helig
    have hq := hall v hv
    have hmem : v.1 ∈ qs := hwalk ▸ List.mem_map_of_mem hv
    obtain ⟨x, hx, hxr, hxi⟩ := hchain.stored hmem
    have hx : l.quote v.1 = some x := hx
    rw [hq, Option.some.injEq] at hx
    subst hx
    have hspec : y.auction.legs[i]? = some leg.spec := by
      simp only [Request.auction, List.getElem?_map]
      rw [show y.legs[i]? = some leg from hleg]
      rfl
    refine ⟨⟨v.1, v.2.offer, leg.spec⟩, ?_, ⟨⟨market_offers hq, hxr, hxi, hactive⟩, hspec⟩, rfl,
      hlive, hlimit, v.2, hq, rfl⟩
    rw [Fill.selection, ← show v.2.price = v.2.offer.price from rfl, hquote, hprice]
  next => cases hbest

-- ============================================================================
-- The plan
-- ============================================================================

/-- A fill of leg `i` as the plan and the intent need it. -/
structure Wins (l : Ledger) (r : ReqIdx) (y : Request) (now i : Nat) (f : Fill) : Prop where
  fits : Fits l.market r y.auction i f
  live : now < f.offer.expiresAt
  price : f.offer.price ≤ f.leg.limit
  stored : ∃ x, l.quote f.quote = some x ∧ x.offer = f.offer

theorem Healthy.planAccept {engine : Engine} {legs : List Leg} {expected : List ExpectedFill}
    {plan plan' : List Selection} {total total' : Nat} (h : engine.ledger.Healthy max none)
    (hr : engine.ledger.request r = some y) (hopened : y.state = .opened)
    (hlegs : ∀ j leg, legs[j]? = some leg → y.leg (i + j) = some leg) (htotal : total ≤ u64Max)
    (hplan : engine.planAccept now i legs expected plan total = .ok (plan', total')) :
    ∃ fills : List Fill, fills.map Fill.leg = legs.map Leg.spec ∧
      plan' = plan ++ fills.map Fill.selection ∧
      total' = total + (fills.map Fill.cost).sum ∧ total' ≤ u64Max ∧
      ∀ j f, fills[j]? = some f → Wins engine.ledger r y now (i + j) f := by
  induction legs generalizing i expected plan total with
  | nil =>
      simp only [Engine.planAccept, Except.ok.injEq, Prod.mk.injEq] at hplan
      obtain ⟨rfl, rfl⟩ := hplan
      exact ⟨[], rfl, by simp, by simp, htotal, by simp⟩
  | cons leg legs ih =>
      unfold Engine.planAccept at hplan
      split at hplan
      · cases hplan
      next selection hbest =>
      split at hplan
      · cases hplan
      next view expected =>
      split at hplan
      · cases hplan
      split at hplan
      · cases hplan
      split at hplan
      · cases hplan
      next total₁ hsum =>
      obtain ⟨cost, hcost, hadd⟩ := Option.bind_eq_some_iff.mp hsum
      obtain ⟨-, rfl⟩ := Size.checkedMul_eq_some.mp hcost
      obtain ⟨hfits, rfl⟩ := checkedAdd_eq_some.mp hadd
      have hleg := hlegs 0 leg rfl
      obtain ⟨f, hsel, hf, hspec, hlive, hlimit, hstored⟩ := h.bestOnLeg hr hopened hleg hbest
      obtain ⟨fills, hmap, rfl, rfl, hle, hwins⟩ := ih (i := i + 1) (fun j leg hj => by
        have := hlegs (j + 1) leg (by simpa using hj)
        rwa [show i + (j + 1) = i + 1 + j by omega] at this) hfits hplan
      have hcost : leg.size * selection.price = f.cost := by
        rw [Fill.cost, hspec, ← hsel]
        rfl
      refine ⟨f :: fills, by simp [hspec, hmap], by simp [hsel], ?_, hle, ?_⟩
      · rw [List.map_cons, List.sum_cons, hcost]
        omega
      · intro j g hg
        cases j with
        | zero =>
            obtain rfl : f = g := by simpa using hg
            exact ⟨by simpa using hf, hlive, by rw [hspec]; exact hlimit, hstored⟩
        | succ j =>
            have := hwins j g (by simpa using hg)
            rwa [show i + 1 + j = i + (j + 1) by omega] at this

theorem buildIntent_eq {legs : List Leg} {fills : List Fill}
    (hlegs : fills.map Fill.leg = legs.map Leg.spec)
    (hstored : ∀ f ∈ fills, ∃ x, l.quote f.quote = some x ∧ x.offer = f.offer) :
    Engine.buildIntent l legs (fills.map Fill.selection) = .ok (fills.map Fill.intentLeg) := by
  induction legs generalizing fills with
  | nil =>
      obtain rfl : fills = [] := by simpa using hlegs
      rfl
  | cons leg legs ih =>
      cases fills with
      | nil => simp at hlegs
      | cons f fills =>
          simp only [List.map_cons, List.cons.injEq] at hlegs
          obtain ⟨x, hx, hoffer⟩ := hstored f (by simp)
          simp only [Engine.buildIntent, List.map_cons, Fill.selection, hx,
            ih hlegs.2 fun g hg => hstored g (by simp [hg])]
          simp only [Fill.intentLeg, hlegs.1, ← hoffer]
          rfl

/-- An accept that passes its checks. -/
structure Checked (engine : Engine) (r : ReqIdx) (now : Nat) (events : EventBuffer)
    (fills : List Fill) (acc : Engine.Acceptance) : Prop where
  record : engine.ledger.request r = some acc.record
  opened : acc.record.state = .opened
  deadline : now < acc.record.deadline
  claim : acc.record.claim = some acc.claim
  covered : ∃ res, engine.ledger.reservation acc.claim = some res ∧ acc.total ≤ res.amount
  legs : fills.map Fill.leg = acc.record.auction.legs
  plan : acc.plan = fills.map Fill.selection
  total : acc.total = (fills.map Fill.cost).sum
  small : acc.total ≤ u64Max
  intent : acc.intent = fills.map Fill.intentLeg
  wins : ∀ j f, fills[j]? = some f → Wins engine.ledger r acc.record now j f
  room : events.headroom (fills.length * engine.config.maxQuotesPerLeg + 1) = true

theorem Healthy.checkAccept {engine : Engine} {acc : Engine.Acceptance} {events : EventBuffer}
    {expected : List ExpectedFill} (h : engine.ledger.Healthy max none)
    (hcheck : engine.checkAccept r expected now events = .ok acc) :
    ∃ fills, Checked engine r now events fills acc := by
  unfold Engine.checkAccept at hcheck
  split at hcheck
  · cases hcheck
  next record hrecord =>
  split at hcheck
  · cases hcheck
  next hopened =>
  split at hcheck
  · cases hcheck
  next hdeadline =>
  split at hcheck
  · cases hcheck
  split at hcheck
  · cases hcheck
  next plan total hplan =>
  split at hcheck
  · cases hcheck
  next claim hclaim =>
  split at hcheck
  · cases hcheck
  next reservation hres =>
  split at hcheck
  · cases hcheck
  next hcovered =>
  split at hcheck
  · cases hcheck
  next hroom =>
  split at hcheck
  · cases hcheck
  next intent hintent =>
  rw [Except.ok.injEq] at hcheck
  subst hcheck
  have hopened : record.state = .opened := by simpa using hopened
  obtain ⟨fills, hmap, rfl, htotal, hsmall, hwins⟩ := h.planAccept (i := 0) hrecord
    hopened (fun j leg hj => by rw [Nat.zero_add]; exact hj) (Nat.zero_le _) hplan
  have hlen : fills.length = record.nLegs := by
    have := congrArg List.length hmap
    simpa [Request.nLegs] using this
  have hbuild := buildIntent_eq (l := engine.ledger) hmap fun f hf => by
    obtain ⟨j, hj⟩ := List.mem_iff_getElem?.mp hf
    exact (hwins j f hj).stored
  rw [List.nil_append, hbuild, Except.ok.injEq] at hintent
  exact ⟨fills, hrecord, hopened, Nat.not_le.mp hdeadline, hclaim,
    ⟨reservation, hres, Nat.not_lt.mp hcovered⟩, hmap, rfl,
    by simpa using htotal, hsmall, hintent.symm, fun j f hj => by simpa using hwins j f hj,
    by rw [hlen]; simpa using hroom⟩

end Ledger

end RfqSettlement
