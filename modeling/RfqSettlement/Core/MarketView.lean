/-
  RfqSettlement.Core.MarketView

  The market a ledger stands for.  `Ledger.market` forgets every link, every
  cache and every claim handle; each operation on the book is read here as the
  operation on the market it amounts to.
-/

import RfqSettlement.Core.Coherence
import RfqSettlement.Core.ClaimWalks

namespace RfqSettlement

def Leg.spec (leg : Leg) : LegSpec := ⟨leg.contract, leg.side, leg.size, leg.limit⟩

def Request.auction (r : Request) : Auction :=
  ⟨r.requester, r.deadline, r.state, r.legs.map Leg.spec⟩

def Quote.offer (q : Quote) : Offer :=
  ⟨q.maker, q.request, q.leg, q.price, q.size, q.expiresAt, q.state⟩

def Book.market (b : Book) : Market where
  totals := b.totals
  claims := b.claims
  sum := b.sum
  auctions r := (b.requests r).map Request.auction
  offers q := (b.quotes q).map Quote.offer

def Ledger.market (l : Ledger) : Market := l.book.market

-- ============================================================================
-- Records
-- ============================================================================

@[simp] theorem Request.auction_unlinked {r : Request} : r.unlinked.auction = r.auction := rfl

@[simp] theorem Request.auction_setClaim {r : Request} {c : Option ResIdx} :
    (r.setClaim c).auction = r.auction := rfl

@[simp] theorem Request.auction_setState {r : Request} {st : RequestState} :
    (r.setState st).auction = r.auction.withState st := rfl

@[simp] theorem Quote.offer_setClaim {q : Quote} {c : Option ResIdx} :
    (q.setClaim c).offer = q.offer := rfl

/-- Rewriting a leg's chain and cache leaves its terms. -/
theorem Request.auction_modifyLeg {r : Request} {leg : Nat} {f : Leg → Leg}
    (hf : ∀ x, (f x).spec = x.spec) : (r.modifyLeg leg f).auction = r.auction := by
  have hlegs : (r.legs.modify leg f).map Leg.spec = r.legs.map Leg.spec := by
    refine List.ext_getElem? fun i => ?_
    rw [List.getElem?_map, List.getElem?_map, List.getElem?_modify]
    cases r.legs[i]? with
    | none => rfl
    | some x =>
        simp only [Option.map_eq_map, Option.map_some, Option.some.injEq]
        split
        · exact hf x
        · rfl
  simp only [Request.auction, Request.modifyLeg, hlegs]

-- ============================================================================
-- Books
-- ============================================================================

namespace Book

variable {b b' : Book} {q : QuoteIdx} {r : ReqIdx} {h : ResIdx} {k : Claim} {owner : ResOwner}
  {c : Option ResIdx} {account now : Nat} {scope : Scope}

theorem market_modifyQuote_of_offer {f : Quote → Quote} (hf : ∀ x, (f x).offer = x.offer) :
    (b.modifyQuote q f).market = b.market := by
  simp only [market, modifyQuote, Market.mk.injEq, true_and]
  funext q'
  simp only [Function.update_apply]
  split
  next heq => simp [heq, Function.comp_def, hf]
  next => rfl

theorem market_modifyQuote {f : Quote → Quote} {x : Quote} (hq : b.quotes q = some x) :
    (b.modifyQuote q f).market = b.market.setOffer q (some (f x).offer) := by
  simp only [market, modifyQuote, Market.setOffer, Market.mk.injEq, true_and]
  funext q'
  simp only [Function.update_apply, hq, Option.map_some]
  split <;> rfl

theorem market_setQuote {x : Option Quote} :
    (b.setQuote q x).market = b.market.setOffer q (x.map Quote.offer) := by
  simp only [market, setQuote, Market.setOffer, Market.mk.injEq, true_and]
  funext q'
  simp only [Function.update_apply]
  split <;> rfl

theorem market_modifyRequest_of_auction {f : Request → Request}
    (hf : ∀ x, (f x).auction = x.auction) : (b.modifyRequest r f).market = b.market := by
  simp only [market, modifyRequest, Market.mk.injEq, true_and, and_true]
  funext r'
  simp only [Function.update_apply]
  split
  next heq => simp [heq, Function.comp_def, hf]
  next => rfl

theorem market_modifyRequest {f : Request → Request} {x : Request} (hr : b.requests r = some x) :
    (b.modifyRequest r f).market = b.market.setAuction r (f x).auction := by
  simp only [market, modifyRequest, Market.setAuction, Market.mk.injEq, true_and, and_true]
  funext r'
  simp only [Function.update_apply, hr, Option.map_some]
  split <;> rfl

theorem market_setRequest {x : Request} :
    (b.setRequest r (some x)).market = b.market.setAuction r x.auction := by
  simp only [market, setRequest, Market.setAuction, Market.mk.injEq, true_and, and_true]
  funext r'
  simp only [Function.update_apply]
  split <;> rfl

@[simp] theorem market_setOwnerClaim : (b.setOwnerClaim owner c).market = b.market := by
  cases owner with
  | quote q => exact market_modifyQuote_of_offer fun _ => rfl
  | request r => exact market_modifyRequest_of_auction fun _ => rfl

theorem market_modifyTotals {f : Totals → Totals} :
    (b.modifyTotals account f).market = b.market.modifyTotals account f := rfl

theorem market_dropClaim : (b.dropClaim h k).market = b.market.dropClaim h k := rfl

theorem market_putClaim : (b.putClaim h k).market = b.market.putClaim h k := rfl

theorem market_free : (b.free h k).market = b.market.free h k := by
  rw [Book.free, market_dropClaim, market_setOwnerClaim, market_modifyTotals]
  rfl

theorem market_discharge : (b.discharge h k).market = b.market.discharge h k := by
  rw [Book.discharge, market_dropClaim, market_setOwnerClaim, market_modifyTotals]
  rfl

theorem market_commit {keep : Nat} : (b.commit h k r keep).market = b.market.commit h k r keep :=
  rfl

theorem market_reserve : (b.reserve h k).market = b.market.reserve h k := by
  rw [Book.reserve, market_putClaim, market_setOwnerClaim, market_modifyTotals]
  rfl

-- ============================================================================
-- Walks
-- ============================================================================

theorem Expired.steps (h : Expired account now b b') : Market.Steps now scope b.market b'.market := by
  induction h with
  | refl => exact .refl _
  | @step b b' claim k e hk ha hs he rest ih =>
      rw [market_free] at ih
      exact (Market.Steps.one (.expire hk hs he)).trans ih

theorem Discharged.steps {gone : List (ResIdx × Claim)} (h : Discharged r b gone b') :
    Market.Steps now (.resolving r) b.market b'.market := by
  induction h with
  | nil => exact .refl _
  | @cons b b' claim k gone hk hs _ _ rest ih =>
      rw [market_discharge] at ih
      exact (Market.Steps.one (.discharge rfl hk hs)).trans ih

end Book

-- ============================================================================
-- Ledgers
-- ============================================================================

namespace Ledger

variable {l : Ledger} {q : QuoteIdx} {r : ReqIdx} {claim : ResIdx} {res : Reservation}
  {owner : ResOwner} {e : Nat}

theorem market_offers {x : Quote} (hq : l.quote q = some x) :
    l.market.offers q = some x.offer := by
  simp [market, Book.market, book, hq]

theorem market_auctions {x : Request} (hr : l.request r = some x) :
    l.market.auctions r = some x.auction := by
  simp [market, Book.market, book, hr]

theorem quote_of_market {o : Offer} (ho : l.market.offers q = some o) :
    ∃ x, l.quote q = some x ∧ x.offer = o :=
  Option.map_eq_some_iff.mp ho

theorem request_of_market {a : Auction} (ha : l.market.auctions r = some a) :
    ∃ x, l.request r = some x ∧ x.auction = a := by
  simpa [market, Book.market, book, Option.map_map, Function.comp_def] using ha

theorem market_claims (hr : l.reservation claim = some res) :
    l.market.claims claim = some res.toClaim := book_claims hr

theorem reservation_of_market {k : Claim} (hk : l.market.claims claim = some k) :
    ∃ res, l.reservation claim = some res ∧ res.toClaim = k := reservation_of_claims hk

theorem legOf_market {x : Quote} :
    l.market.legOf x.offer = ((l.request x.request).bind fun r => r.leg x.leg).map Leg.spec := by
  simp only [Market.legOf, market, Book.market, book, Quote.offer]
  cases l.request x.request with
  | none => rfl
  | some r => simp [Request.leg, Request.unlinked, Request.auction]

/-- An owner without a claim backs nothing. -/
theorem Intact.backing_none (h : l.Intact) (howner : l.ownerClaim owner = some none) :
    l.market.Backing owner none := by
  rintro claim k hk rfl
  have := h.balanced.held claim k hk
  rw [ownerClaim_book, howner] at this
  cases this

/-- An owner's claim, where it is reserved. -/
theorem Intact.backing_some (h : l.Intact) (howner : l.ownerClaim owner = some (some claim))
    (hreserved : ∀ k, l.market.claims claim = some k → ∃ e, k.status = .reserved e) :
    ∃ res e, l.reservation claim = some res ∧ res.owner = owner ∧
      res.toClaim.status = .reserved e ∧ l.market.Reserved owner claim res.toClaim := by
  rw [← ownerClaim_book] at howner
  obtain ⟨k, hk, hown⟩ := h.balanced.holder owner claim howner
  obtain ⟨res, hres, rfl⟩ := reservation_of_claims hk
  obtain ⟨e, he⟩ := hreserved _ hk
  refine ⟨res, e, hres, hown, he, hk, hown, ⟨e, he⟩, ?_⟩
  intro t ht
  obtain ⟨m, hm, rfl⟩ := Option.map_eq_some_iff.mp ht
  exact h.amount_le_reserved hres he hm

end Ledger

end RfqSettlement
