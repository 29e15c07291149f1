/-
  RfqSettlement.Runtime.Settlement

  The settlement adapter, and what it carries: the claims an accept commits and the
  bundle its intent becomes are the same money, account by account.

  A bundle's legs are copied one by one from the intent's; both are lists here.
-/

import RfqSettlement.Core.Claimed
import RfqSettlement.Core.Standing
import RfqSettlement.Chain.Validation
import Mathlib.Algebra.Order.BigOperators.Group.List
import Mathlib.Algebra.Order.Group.Nat

namespace RfqSettlement

-- ============================================================================
-- The adapter
-- ============================================================================

def IntentLeg.toBundleLeg (leg : IntentLeg) : BundleLeg :=
  ⟨leg.contract, leg.side, leg.size, leg.maker, leg.fillPrice, leg.quoteExpiry⟩

/-- Turn a `SubmitIntent` into a settlement transaction. -/
def bundleFrom : Event → Option Bundle
  | .submitIntent _ nonce requester legs => some ⟨nonce, requester, legs.map IntentLeg.toBundleLeg⟩
  | _ => none

theorem bundleFrom_of_not_order {event : Event} (h : event.isOrder = false) :
    bundleFrom event = none := by
  cases event <;> simp_all [Event.isOrder, bundleFrom]

-- ============================================================================
-- A fill, on both sides
-- ============================================================================

/-- A fill whose two contributions are what custody computes from its leg. -/
structure Fill.Sound (f : Fill) : Prop where
  price : f.offer.price ≤ UNIT
  maker : f.leg.size * (UNIT - f.offer.price) ≤ u64Max
  requester : f.leg.size * f.offer.price ≤ u64Max

variable {f : Fill} {fills : List Fill} {r : ReqIdx} {requester a : Nat}

def Fill.bundleLeg (f : Fill) : BundleLeg := f.intentLeg.toBundleLeg

theorem Fill.Sound.makerContribution (h : f.Sound) :
    f.bundleLeg.makerContribution = some (f.leg.size * (UNIT - f.offer.price)) :=
  Size.makerContribution_eq_some.mpr ⟨h.price, h.maker, rfl⟩

theorem Fill.Sound.requesterContribution (h : f.Sound) :
    f.bundleLeg.requesterContribution = some f.cost :=
  Size.checkedMul_eq_some.mpr ⟨h.requester, rfl⟩

theorem Fill.Sound.escrowOf (h : f.Sound) :
    CustodyLedger.escrowOf requester f.bundleLeg =
      Escrow.lock f.leg.contract f.leg.side f.leg.size requester f.offer.maker f.cost
        (f.leg.size * (UNIT - f.offer.price)) := by
  rw [CustodyLedger.escrowOf, h.makerContribution, h.requesterContribution]
  rfl

/-- Both contributions of a fill make up its notional. -/
theorem Fill.Sound.stake (h : f.Sound) :
    (CustodyLedger.escrowOf requester f.bundleLeg).stake = f.leg.size * UNIT := by
  have hprice := h.price
  rw [h.escrowOf]
  show f.leg.size * f.offer.price + f.leg.size * (UNIT - f.offer.price) = _
  rw [← Nat.mul_add]
  congr 1
  omega

/-- The bundle of the fills of a request. -/
def bundleOf (r : ReqIdx) (requester : Nat) (fills : List Fill) : Bundle :=
  ⟨Nonce.of r, requester, fills.map Fill.bundleLeg⟩

/-- What the fills' claims add up to on one account, and what the bundle takes from it. -/
theorem due_bundleOf (hsound : ∀ f ∈ fills, f.Sound) (auction : Auction)
    (hrequester : auction.requester = requester) :
    (bundleOf r requester fills).due a =
      ((fills.map (Fill.claim r) ++ [Ledger.requesterClaim r auction (fills.map Fill.cost).sum]).map
        (Claim.committedOn r a)).sum := by
  have hone : ∀ f : Fill, f.Sound → (CustodyLedger.escrowOf requester f.bundleLeg).contributionOf a =
      Claim.committedOn r a (f.claim r) + if requester = a then f.cost else 0 := by
    intro f hf
    rw [hf.escrowOf]
    by_cases hmaker : f.offer.maker = a
    all_goals
      by_cases hself : requester = a
      all_goals
        simp [Escrow.contributionOf, Escrow.lock, Claim.committedOn, Fill.claim, hmaker, hself]
  have hsum : ∀ fills : List Fill, (∀ f ∈ fills, f.Sound) →
      (bundleOf r requester fills).due a =
        (fills.map fun f => Claim.committedOn r a (f.claim r)).sum +
          if requester = a then (fills.map Fill.cost).sum else 0 := by
    intro fills
    induction fills with
    | nil => simp [bundleOf, Bundle.due, Bundle.escrows]
    | cons f fills ih =>
        intro hall
        have hrest := ih fun g hg => hall g (by simp [hg])
        simp only [bundleOf, Bundle.due, Bundle.escrows, List.map_cons, List.sum_cons] at hrest ⊢
        rw [hrest, hone f (hall f (by simp))]
        split <;> omega
  rw [hsum fills hsound]
  simp [Claim.committedOn, Ledger.requesterClaim, hrequester, Function.comp_def]

/-- The bundle of fills whose sums fit is payable. -/
theorem payable_bundleOf (hsound : ∀ f ∈ fills, f.Sound) (hnonempty : fills ≠ [])
    (hfew : fills.length ≤ MAX_LEGS)
    (hfits : ∀ a, (bundleOf r requester fills).due a ≤ u64Max) :
    (bundleOf r requester fills).Payable := by
  refine ⟨by simpa [bundleOf] using hnonempty, by simpa [bundleOf] using hfew, ?_, hfits⟩
  intro leg hleg
  obtain ⟨f, hf, rfl⟩ := List.mem_map.mp hleg
  exact ⟨_, _, (hsound f hf).makerContribution, (hsound f hf).requesterContribution⟩

-- ============================================================================
-- An accept
-- ============================================================================

namespace Engine

variable {e n : Engine} {config : Config} {now : Nat} {input : Input} {expected : List ExpectedFill}
  {events : EventBuffer} {acc : Acceptance} {max : Nat}

/-- The fills of an accept are sound. -/
theorem Sane.sound_fills (h : e.Sane) (hchecked : Ledger.Checked e r now events fills acc) :
    ∀ f ∈ fills, f.Sound := by
  intro f hf
  obtain ⟨i, hi⟩ := List.mem_iff_getElem?.mp hf
  have hwins := hchecked.wins i f hi
  have hauction := Ledger.market_auctions hchecked.record
  have hfair := h.healthy.coherent.fair r _ hauction
  obtain ⟨leg, hleg, hoffer⟩ := h.healthy.coherent.offer _ _ hwins.fits.onLeg.offer
  have hspec : e.ledger.market.legOf f.offer = some f.leg := by
    simp [Market.legOf, hwins.fits.onLeg.request, hauction, hwins.fits.onLeg.leg, hwins.fits.leg]
  obtain rfl : f.leg = leg := Option.some.inj (hspec.symm.trans hleg)
  have hlimit : f.leg.size * f.leg.limit ≤ acc.record.auction.total :=
    List.le_sum_of_mem (List.mem_map.mpr ⟨f.leg, List.mem_of_getElem? hwins.fits.leg, rfl⟩)
  have hcost : f.leg.size * f.offer.price ≤ f.leg.size * f.leg.limit :=
    Nat.mul_le_mul_left _ hwins.price
  exact ⟨hoffer.price, hoffer.fits, hcost.trans (hlimit.trans hfair.fits)⟩

/-- What an accept does, seen from both sides: which claims it commits, and the bundle
    its intent becomes. -/
structure Collateralises (r : ReqIdx) (bundle : Bundle) (m m' : Market) : Prop where
  nonce : bundle.nonce = Nonce.of r
  before : ∀ h k, m.claims h = some k → k.status ≠ .committed r
  placed : ∃ qs : List QuoteIdx, qs.length = bundle.legs.length ∧
    Market.Adds r m m' ((bundle.legs.zip qs).map (fun x =>
        ⟨x.1.maker, x.1.size * (UNIT - x.1.fillPrice), .quote x.2, .committed r⟩) ++
      [⟨bundle.requester, (bundle.legs.map fun leg => leg.size * leg.fillPrice).sum, .request r,
        .committed r⟩])
  returned : ∀ h k, m'.claims h = some k → k.owner = .request r → k.status = .committed r
  claimed : ∀ a t, m'.totals a = some t → t.claimed = m'.sum (Claim.heldBy a)
  due : ∀ a, m'.pledged r a = bundle.due a
  total : (bundle.escrows.map Escrow.stake).sum = (bundle.legs.map fun leg => leg.size * UNIT).sum
  payable : bundle.Payable

theorem Sane.collateralises {w' : Work} (h : n.Sane) (hb : n.market.Backed now)
    (hchecked : Ledger.Checked n r now events fills acc)
    (haccepted : Ledger.Accepted max r now acc.record.auction acc.total (Ledger.intentOf r acc) fills
      (n.ledger, events) w') :
    Collateralises r (bundleOf r acc.record.requester fills) n.market w'.1.market := by
  have hsound := h.sound_fills hchecked
  have hauction := Ledger.market_auctions hchecked.record
  have hopened : acc.record.auction.state = .opened := hchecked.opened
  have hfair := h.healthy.coherent.fair r _ hauction
  obtain ⟨deadline, hsettling⟩ := haccepted.settling
  have hlive : ∀ f ∈ fills, now < f.offer.expiresAt := by
    intro f hf
    obtain ⟨i, hi⟩ := List.mem_iff_getElem?.mp hf
    exact (hchecked.wins i f hi).live
  obtain ⟨ks, hadds, hexact⟩ := haccepted.adds
  rw [hexact hb hlive, hchecked.total] at hadds
  have hbefore : ∀ c k, n.market.claims c = some k → k.status ≠ .committed r := by
    intro c k hk hs
    obtain ⟨a, ha, ⟨nonce, d, hset⟩ | ⟨hnone, -⟩⟩ := h.healthy.coherent.committed c k r hk hs
    · obtain rfl := Option.some.inj (hauction.symm.trans ha)
      rw [hopened] at hset
      cases hset
    · cases hnone
  have hzero : ∀ a, n.market.pledged r a = 0 := fun a =>
    Ledger.book_sum_eq_zero fun c k hk => Market.committedOn_eq_zero (hbefore c k hk)
  have hdue : ∀ a, w'.1.market.pledged r a = (bundleOf r acc.record.requester fills).due a := by
    intro a
    refine (hadds.pledged a).trans ?_
    rw [show Ledger.market (n.ledger, events).1 = n.market from rfl, hzero a, Nat.zero_add]
    exact (due_bundleOf hsound acc.record.auction rfl).symm
  have hlen : fills.length = acc.record.auction.legs.length := by
    have := congrArg List.length hchecked.legs
    simpa using this
  refine ⟨rfl, hbefore, ⟨fills.map Fill.quote, by simp [bundleOf], ?_⟩, ?_,
    fun a t => haccepted.healthy.intact.claimed, hdue, ?_, ?_⟩
  · have hzip : ((bundleOf r acc.record.requester fills).legs.zip (fills.map Fill.quote)).map
        (fun x => (⟨x.1.maker, x.1.size * (UNIT - x.1.fillPrice), .quote x.2, .committed r⟩ : Claim)) =
          fills.map (Fill.claim r) := by
      rw [bundleOf, List.zip_map', List.map_map]
      rfl
    have hcost : ((bundleOf r acc.record.requester fills).legs.map
        fun leg => leg.size * leg.fillPrice).sum = (fills.map Fill.cost).sum := by
      rw [bundleOf, List.map_map]
      rfl
    rw [hzip, hcost]
    exact hadds
  · intro c k hk howner
    obtain ⟨a, ha, hbacks⟩ := haccepted.healthy.coherent.auctioned c k r hk howner
    cases hs : k.status with
    | committed r' => rw [hbacks.committed r' hs]
    | reserved e =>
        obtain rfl := Option.some.inj (hsettling.symm.trans ha)
        have := (hbacks.reserved e hs).1
        simp at this
  · rw [Bundle.escrows, bundleOf, List.map_map, List.map_map, List.map_map]
    refine congrArg List.sum (List.map_congr_left fun f hf => ?_)
    exact (hsound f hf).stake
  · refine payable_bundleOf hsound ?_ ?_ fun a => ?_
    · intro hnil
      rw [hnil] at hlen
      exact hfair.legs (List.length_eq_zero_iff.mp hlen.symm)
    · rw [hlen]
      exact hfair.count
    · rw [← hdue a]
      exact (Ledger.pledged_le_heldBy _ r a).trans (haccepted.healthy.intact.heldBy_le a)

/-- The event buffer of an accept hands the adapter one bundle. -/
theorem bundles_of_accepted {w' : Work} {capacity : Nat}
    (hchecked : Ledger.Checked n r now (.withCapacity capacity) fills acc)
    (haccepted : Ledger.Accepted max r now acc.record.auction acc.total (Ledger.intentOf r acc) fills
      (n.ledger, .withCapacity capacity) w') :
    w'.2.events.filterMap bundleFrom = [bundleOf r acc.record.requester fills] := by
  obtain ⟨b, hnoted, hevents⟩ := haccepted.events
  obtain ⟨new, hb, -, hnotices⟩ := hnoted.events
  have hquiet : new.filterMap bundleFrom = [] := by
    refine List.filterMap_eq_nil_iff.mpr fun event hevent => ?_
    exact bundleFrom_of_not_order (Event.isOrder_of_isNotice (hnotices event hevent))
  have hintent : bundleFrom (Ledger.intentOf r acc) = some (bundleOf r acc.record.requester fills) := by
    rw [Ledger.intentOf, hchecked.intent, bundleFrom, List.map_map]
    rfl
  rw [hevents, hb, List.filterMap_append, List.filterMap_append, hquiet]
  simp [EventBuffer.withCapacity, hintent]

/-- Every successful accept of a run hands over one bundle, and commits exactly what
    custody's checks will debit for it: account by account, leg by leg and in total. -/
theorem ReachableAt.collateral (input : Input) (h : ReachableAt config now e)
    (hnow : now ≤ input.now)
    (hcommand : input.command = .acceptRequest r expected) (hok : (e.answer input).1 = .ok ()) :
    ∃ bundle n, (e.emits input).filterMap bundleFrom = [bundle] ∧
      Normalised input.now e n ∧ Collateralises r bundle n.market (e.step input).market ∧
      (∀ chainNow, (∃ debits, CustodyLedger.validateLegs bundle.requester chainNow
            bundle.legs.zipIdx [] = .ok debits ∧
          ∀ a, debits.of a = (e.step input).market.pledged r a) ∨
        ∃ leg, CustodyLedger.validateLegs bundle.requester chainNow bundle.legs.zipIdx [] =
          .error (.quoteExpired leg)) ∧
      ∀ (l : CustodyLedger) (chainNow : Nat), ∀ err ∈ [SettleError.amountOverflow, .noLegs, .tooManyLegs],
        l.validate bundle chainNow ≠ .error err := by
  have hn := h.sane.normalised input.command input.now
  generalize hnormal : e.normaliseAll (e.touchedAccounts input.command) input.now = n at hn
  have hanswer : e.answer input =
      n.perform input.command input.now (.withCapacity input.capacity) := by
    rw [answer, apply, hnormal]
  have hb : n.market.Backed input.now :=
    (h.backed.mono hnow).steps_of h.sane.healthy.coherent (hn.steps .calm) rfl
  have hperforms := hn.sane.performs input.command input.now (.withCapacity input.capacity)
  rw [← hanswer, hcommand] at hperforms
  generalize hw : e.answer input = answer at hperforms hok
  cases hperforms with
  | refused => cases hok
  | traded hfor hcalm => exact absurd hfor (hcalm r).1
  | @accepted _ _ acc fills w' hchecked haccepted =>
      have hcol := hn.sane.collateralises hb hchecked haccepted
      have hstep : (e.step input).market = w'.1.market := by
        rw [Engine.step, hw]
        rfl
      refine ⟨_, n, ?_, hn, hstep ▸ hcol, fun chainNow => ?_, fun l chainNow err herr => ?_⟩
      · rw [emits, hw]
        exact bundles_of_accepted hchecked haccepted
      · rcases CustodyLedger.validateLegs_of_payable hcol.payable chainNow with
          ⟨debits, hdebits, hof⟩ | hexpired
        · exact .inl ⟨debits, hdebits, fun a => by rw [hstep, hcol.due a, hof a]⟩
        · exact .inr hexpired
      · rcases CustodyLedger.validate_of_payable hcol.payable l chainNow with
          ⟨debits, heq, -⟩ | heq | ⟨leg, heq⟩ | ⟨debits, err', -, -, hcovered, heq⟩
        · rw [heq]
          simp
        · rw [heq]
          rintro ⟨⟩
          simp at herr
        · rw [heq]
          rintro ⟨⟩
          simp at herr
        · rw [heq]
          rintro ⟨⟩
          obtain ⟨x, -, ⟨rfl, -⟩ | ⟨rfl, -⟩⟩ := CustodyLedger.validateDebits_error hcovered
          all_goals simp at herr

/-- Maker 1 is filled on both legs; the sum of both claims is committed. -/
theorem collateral_crowded :
    (∃ bundle, (crowded.emits crowdedAccept).filterMap bundleFrom = [bundle] ∧
      bundle.legs.map BundleLeg.maker = [1, 1] ∧
      ∀ a, (crowded.step crowdedAccept).market.pledged ⟨0, 0⟩ a = bundle.due a) ∧
      (crowded.step crowdedAccept).market.pledged ⟨0, 0⟩ 0 = 1580000 ∧
      (crowded.step crowdedAccept).market.pledged ⟨0, 0⟩ 1 = 1420000 := by
  obtain ⟨bundle, n, hbundle, -, hcol, -⟩ := reachableAt_crowded.collateral crowdedAccept
    (by decide) rfl crowded_accepted
  have hlegs : (crowded.emits crowdedAccept).filterMap bundleFrom =
      [⟨⟨0, 0⟩, 0, [⟨0, .yes, 2, 1, 540000, 41⟩, ⟨1, .no, 1, 1, 500000, 42⟩]⟩] := by decide +kernel
  obtain rfl := List.singleton_inj.mp (hbundle.symm.trans hlegs)
  refine ⟨⟨_, hbundle, rfl, hcol.due⟩, ?_, ?_⟩
  · rw [hcol.due]
    decide
  · rw [hcol.due]
    decide

end Engine

end RfqSettlement
