/-
  RfqSettlement.Core.Trading

  What the handlers do to a healthy ledger, one piece of a handler at a time: let
  an owner's claim go, take a quote off its leg, consume a winner, open a quote
  or a request.  Each leaves a healthy ledger and a market one step on.
-/

import RfqSettlement.Core.QuoteLinks
import RfqSettlement.Core.MarketMoves

namespace RfqSettlement

def Book.letGo (b : Book) : Option (ResIdx × Claim) → Book
  | none => b
  | some (h, k) => b.free h k

theorem Book.market_letGo {b : Book} {held : Option (ResIdx × Claim)} :
    (b.letGo held).market = b.market.letGo held := by
  cases held with
  | none => rfl
  | some v => exact market_free

theorem Book.Chained.letGo {b : Book} {max : Nat} {loose : Option QuoteIdx}
    {held : Option (ResIdx × Claim)} (h : b.Chained max loose) : (b.letGo held).Chained max loose := by
  cases held with
  | none => exact h
  | some v => exact h.free

namespace Ledger

/-- What holds of the ledger between commands, and between the pieces of one. -/
structure Healthy (max : Nat) (filled : Option ReqIdx) (l : Ledger) : Prop where
  intact : l.Intact
  chained : l.book.Chained max none
  coherent : l.market.Coherent filled

variable {l : Ledger} {max i now amount : Nat} {filled : Option ReqIdx} {q : QuoteIdx} {r : ReqIdx}
  {x : Quote} {y : Request} {leg : Leg} {owner : ResOwner} {claim : Option ResIdx} {scope : Scope}

theorem Touches.healthy {l' : Ledger} (ht : Touches l l') (h : l.Healthy max filled)
    (hch : l'.book.Chained max none) : l'.Healthy max filled :=
  ⟨ht.intact h.intact, hch, ht.market ▸ h.coherent⟩

-- ============================================================================
-- Letting a claim go
-- ============================================================================

/-- `l'` is `l` with `owner`'s claim, if it had one, released. -/
structure LetsGo (l : Ledger) (owner : ResOwner) (claim : Option ResIdx)
    (held : Option (ResIdx × Claim)) (l' : Ledger) : Prop where
  backing : l.market.Backing owner held
  named : held.map Prod.fst = claim
  intact : l'.Intact
  book : l'.book = l.book.letGo held
  kept : Kept l l'
  room : l'.reservations.hasRoom =
    (l.reservations.hasRoom || claim.any fun (c : ResIdx) => decide (c.generation + 1 ≤ u32Max))

theorem Intact.releaseIfHeld (h : l.Intact) (howner : l.ownerClaim owner = some claim)
    (hreserved : ∀ c k, claim = some c → l.market.claims c = some k →
      ∃ e, k.status = .reserved e) :
    ∃ held, LetsGo l owner claim held (l.releaseIfHeld claim) := by
  cases claim with
  | none => exact ⟨none, h.backing_none howner, rfl, h, rfl, Kept.refl l, by simp [releaseIfHeld]⟩
  | some c =>
      obtain ⟨res, e, hres, -, hs, hbacking⟩ := h.backing_some howner fun k => hreserved c k rfl
      have hf := h.reclaim hres hs
      have heq : l.releaseIfHeld (some c) = l.reclaim res.account c res := by
        have : res.isCommitted = false := Reservation.isCommitted_eq_false.mpr ⟨e, hs⟩
        simp [Ledger.releaseIfHeld, CommitPhase.release, hres, this]
      rw [heq]
      exact ⟨some (c, res.toClaim), hbacking, rfl, hf.intact, hf.book, hf.kept, hf.room⟩

/-- The claim of an active offer is reserved. -/
theorem Healthy.reserved_of_active (h : l.Healthy max filled) (hq : l.quote q = some x)
    (hactive : x.state = .active) {c : ResIdx} {k : Claim} (hc : x.claim = some c)
    (hk : l.market.claims c = some k) : ∃ e, k.status = .reserved e := by
  have howner : l.book.ownerClaim (.quote q) = some (some c) := by
    rw [ownerClaim_book]
    simp [Ledger.ownerClaim, hq, hc]
  obtain ⟨k', hk', hown⟩ := h.intact.balanced.holder _ _ howner
  have hk : l.book.claims c = some k := hk
  rw [hk, Option.some.injEq] at hk'
  subst hk'
  obtain ⟨o, leg, ho, -, hb⟩ := h.coherent.offered c k q hk hown
  rw [market_offers hq, Option.some.injEq] at ho
  subst ho
  cases hs : k.status with
  | reserved e => exact ⟨e, rfl⟩
  | committed r' =>
      have := (hb.committed r' hs).1
      rw [show x.offer.state = x.state from rfl, hactive] at this
      cases this

theorem requests_letGo_quote {b : Book} {held : Option (ResIdx × Claim)} {m : Market}
    (hheld : m.Backing (.quote q) held) : (b.letGo held).requests = b.requests := by
  cases held with
  | none => rfl
  | some v =>
      obtain ⟨c, k⟩ := v
      simp only [Book.letGo, Book.free, hheld.owner]
      rfl

/-- Once its claim is let go an owner holds none. -/
theorem LetsGo.ownerClaim {l' : Ledger} {held : Option (ResIdx × Claim)}
    (h : LetsGo l owner claim held l') (howner : l.ownerClaim owner = some claim) :
    l'.ownerClaim owner = some none := by
  rw [← ownerClaim_book, h.book]
  have hnamed := h.named
  have hbacking := h.backing
  cases held with
  | none =>
      obtain rfl : claim = none := by simpa [eq_comm] using hnamed
      rw [Book.letGo, ownerClaim_book]
      exact howner
  | some v =>
      obtain ⟨c, k⟩ := v
      simp only [Book.letGo, Book.free, Book.ownerClaim_dropClaim, Book.ownerClaim_setOwnerClaim,
        Book.ownerClaim_modifyTotals, hbacking.owner, if_true, ownerClaim_book, howner,
        Option.map_some]

-- ============================================================================
-- Retiring a quote
-- ============================================================================

/-- `l'` is `l` with the quote `q` taken off its leg and its slot freed. -/
structure Retires (l : Ledger) (max : Nat) (filled : Option ReqIdx) (q : QuoteIdx) (x : Quote)
    (held : Option (ResIdx × Claim)) (l' : Ledger) : Prop where
  backing : l.market.Backing (.quote q) held
  named : held.map Prod.fst = x.claim
  healthy : l'.Healthy max filled
  market : l'.market = (l.market.letGo held).setOffer q none
  sized : Sized l l'
  quoteRoom : l'.quotes.hasRoom = (l.quotes.hasRoom || decide (q.generation + 1 ≤ u32Max))
  room : l'.reservations.hasRoom =
    (l.reservations.hasRoom || x.claim.any fun (c : ResIdx) => decide (c.generation + 1 ≤ u32Max))

theorem Retires.step {held : Option (ResIdx × Claim)} {l' : Ledger}
    (h : Retires l max filled q x held l') (hq : l.quote q = some x)
    (hscope : scope.Withdraws q x.offer) : Market.Step now scope l.market l'.market := by
  rw [h.market]
  exact .withdraw hscope (market_offers hq) h.backing

theorem Healthy.retireQuote (h : l.Healthy max filled) (hr : l.request r = some y)
    (hopened : y.state = .opened) (hleg : y.leg i = some leg) (hq : l.quote q = some x)
    (hxr : x.request = r) (hxi : x.leg = i) (hactive : x.state = .active) :
    ∃ held, Retires l max filled q x held (l.retireQuote r i q x.claim) := by
  have howner : l.ownerClaim (.quote q) = some x.claim := by simp [Ledger.ownerClaim, hq]
  obtain ⟨held, hgo⟩ := h.intact.releaseIfHeld howner
    fun c k hc hk => h.reserved_of_active hq hactive hc hk
  refine ⟨held, ?_⟩
  unfold Ledger.retireQuote
  dsimp only
  generalize hl₁ : l.releaseIfHeld x.claim = l₁ at hgo
  -- the claim is gone and nothing else of the records is
  have hmarket₁ : l₁.market = l.market.letGo held := by
    rw [Ledger.market, hgo.book, Book.market_letGo]
    rfl
  obtain ⟨x₁, hx₁, hoffer₁⟩ := quote_of_market (l := l₁) (q := q) (o := x.offer)
    (by rw [hmarket₁, Market.offers_letGo]; exact market_offers hq)
  have hclaim₁ : x₁.claim = none := by
    have := hgo.ownerClaim howner
    simpa [Ledger.ownerClaim, hx₁] using this
  obtain ⟨y₁, hy₁, hunlinked⟩ : ∃ y₁, l₁.request r = some y₁ ∧ y₁.unlinked = y.unlinked := by
    have heq : l₁.book.requests r = l.book.requests r := by
      rw [hgo.book, requests_letGo_quote hgo.backing]
    rw [book_requests hr] at heq
    obtain ⟨y₁, hy₁, hu⟩ := Option.map_eq_some_iff.mp heq
    exact ⟨y₁, hy₁, hu⟩
  -- it is marked released
  have hch₂ : (l₁.modifyQuote q fun q => q.setState .released).book.Chained max none := by
    rw [book_modifyQuote]
    refine Book.Chained.modifyQuote ?_ fun _ => rfl
    rw [hgo.book]
    exact h.chained.letGo
  have hx₂ : (l₁.modifyQuote q fun q => q.setState .released).quote q =
      some (x₁.setState .released) := by
    rw [quote_modifyQuote, if_pos rfl, hx₁]
    rfl
  have hi₂ : (l₁.modifyQuote q fun q => q.setState .released).Intact :=
    hgo.intact.modifyQuote fun _ => rfl
  -- it leaves its chain
  have hopened₁ : y₁.state = .opened := (congrArg Request.state hunlinked).trans hopened
  have hleg₁ : y₁.leg i = some leg := by
    have hlegs : y₁.unlinked.legs = y.unlinked.legs := congrArg Request.legs hunlinked
    exact (congrArg (·[i]?) hlegs).trans hleg
  obtain ⟨ht, hch₃⟩ := unlinkQuote_of_chained hch₂ hy₁ hopened₁ hleg₁ hx₂
    ((congrArg Offer.request hoffer₁).trans hxr) ((congrArg Offer.leg hoffer₁).trans hxi)
  obtain ⟨x₃, hx₃, -, hclaim₃⟩ := ht.quote hx₂
  generalize (l₁.modifyQuote q fun q => q.setState .released).unlinkQuote r i q = l₃ at *
  -- and its slot is freed
  have hclaim₃ : x₃.claim = none := hclaim₃.trans hclaim₁
  have hassert : (l₃.quote q).any (fun (q : Quote) => q.claim.isNone) = true := by
    simp [hx₃, hclaim₃]
  obtain ⟨hi₄, hbook₄, hsized₄⟩ := (ht.intact hi₂).removeQuote fun v hv => by
    rw [hx₃, Option.some.injEq] at hv
    exact hv ▸ hclaim₃
  have hclose : CommitPhase.closeQuote l₃ q = { l₃ with quotes := (l₃.quotes.remove q).2 } := by
    rw [CommitPhase.closeQuote, debugAssert_of_true hassert]
  have hmarket : (CommitPhase.closeQuote l₃ q).market = (l.market.letGo held).setOffer q none := by
    rw [hclose, Ledger.market, hbook₄, Book.market_setQuote, Option.map_none]
    have hm₃ : l₃.book.market = (l₁.modifyQuote q fun q => q.setState .released).market := ht.market
    rw [hm₃, Ledger.market, book_modifyQuote, Book.market_modifyQuote (x := x₁) hx₁,
      ← Ledger.market, hmarket₁]
    simp [Market.setOffer]
  have hcoherent : ((l.market.letGo held).setOffer q none).Coherent filled :=
    h.coherent.letGo.dropOffer (h.coherent.unclaimed_letGo hgo.backing)
  refine ⟨hgo.backing, hgo.named, ⟨?_, ?_, hmarket ▸ hcoherent⟩, hmarket, ?_, ?_, ?_⟩
  · rw [hclose]
    exact hi₄
  · rw [hclose, hbook₄]
    refine hch₃.setQuote ?_ (fun _ _ _ hl => absurd rfl hl) (by simp)
    intro q' hne
    simp [hne]
  · rw [hclose]
    exact ((hgo.kept.trans kept_modifyQuote).trans ht.kept).sized.trans hsized₄
  · rw [hclose, Slab.hasRoom_remove hx₃]
    have hfree : l₃.quotes.freeHead = l.quotes.freeHead :=
      ht.kept.quoteRoom.trans (kept_modifyQuote.quoteRoom.trans hgo.kept.quoteRoom)
    simp only [Slab.hasRoom, hfree]
  · rw [hclose]
    show l₃.reservations.hasRoom = _
    rw [ht.reservations]
    exact hgo.room

-- ============================================================================
-- Releasing a leg
-- ============================================================================

/-- `w'` is `w` with the quotes `qs` retired, their makers told, and nothing else
    of the market touched. -/
structure Clears (max : Nat) (filled : Option ReqIdx) (scope : Scope) (now : Nat)
    (qs : List QuoteIdx) (w w' : Work) : Prop where
  healthy : w'.1.Healthy max filled
  sized : Sized w.1 w'.1
  steps : Market.Steps now scope w.1.market w'.1.market
  auctions : w'.1.market.auctions = w.1.market.auctions
  offers : ∀ q, w'.1.market.offers q = if q ∈ qs then none else w.1.market.offers q
  claims : ∀ h k r', k.owner = .request r' →
    (w'.1.market.claims h = some k ↔ w.1.market.claims h = some k)
  pledges : ∀ r', Market.SamePledges r' w.1.market w'.1.market
  noted : EventBuffer.Noted qs.length w.2 w'.2

theorem Clears.refl {w : Work} (h : w.1.Healthy max filled) :
    Clears max filled scope now [] w w :=
  ⟨h, Sized.refl _, .refl _, rfl, by simp, fun _ _ _ _ => Iff.rfl, fun r' => .refl r' _,
    .refl _⟩

theorem Clears.trans {w w' w'' : Work} {qs qs' : List QuoteIdx}
    (h : Clears max filled scope now qs w w') (h' : Clears max filled scope now qs' w' w'') :
    Clears max filled scope now (qs ++ qs') w w'' where
  healthy := h'.healthy
  sized := h.sized.trans h'.sized
  steps := h.steps.trans h'.steps
  auctions := h'.auctions.trans h.auctions
  offers q := by
    rw [h'.offers, h.offers]
    by_cases hq : q ∈ qs <;> by_cases hq' : q ∈ qs' <;> simp [hq, hq']
  claims c k r' hk := (h'.claims c k r' hk).trans (h.claims c k r' hk)
  pledges r' := (h.pledges r').trans (h'.pledges r')
  noted := by
    rw [List.length_append]
    exact h.noted.trans h'.noted

/-- A claim that goes with an offer is not a request's. -/
theorem claims_letGo_quote {m : Market} {held : Option (ResIdx × Claim)}
    (hheld : m.Backing (.quote q) held) {c : ResIdx} {k : Claim} {r' : ReqIdx}
    (hk : k.owner = .request r') : (m.letGo held).claims c = some k ↔ m.claims c = some k := by
  cases held with
  | none => exact Iff.rfl
  | some v =>
      obtain ⟨c', k'⟩ := v
      show Function.update m.claims c' none c = some k ↔ _
      rw [Function.update_apply]
      split
      next heq =>
        subst heq
        rw [hheld.claim]
        constructor
        · intro hnone
          cases hnone
        · intro heq
          rw [Option.some.injEq] at heq
          have := hheld.owner
          rw [heq, hk] at this
          cases this
      next => exact Iff.rfl

theorem Retires.clears (now : Nat) {w : Work} {held : Option (ResIdx × Claim)} {l' : Ledger} {e : Event}
    (h : Retires w.1 max filled q x held l') (hq : w.1.quote q = some x)
    (hscope : scope.Withdraws q x.offer) (he : e.isNotice = true) :
    Clears max filled scope now [q] w (l', w.2.push e) where
  healthy := h.healthy
  sized := h.sized
  steps := .one (h.step hq hscope)
  auctions := by
    show l'.market.auctions = _
    rw [h.market]
    exact Market.auctions_letGo
  offers q' := by
    show l'.market.offers q' = _
    rw [h.market]
    simp only [Market.setOffer, Function.update_apply, List.mem_singleton, Market.offers_letGo]
  claims c k r' hk := by
    show l'.market.claims c = some k ↔ _
    rw [h.market]
    exact claims_letGo_quote h.backing hk
  pledges r' := by
    show Market.SamePledges r' _ l'.market
    rw [h.market]
    exact (Market.SamePledges.letGo h.backing).trans (.congr rfl rfl)
  noted := EventBuffer.noted_push he

/-- A quote standing on leg `i` of an open request. -/
structure OnLeg (m : Market) (r : ReqIdx) (i : Nat) (q : QuoteIdx) (o : Offer) : Prop where
  offer : m.offers q = some o
  request : o.request = r
  leg : o.leg = i
  active : o.state = .active

/-- One doomed quote after another. -/
theorem Healthy.releaseQuotes {w : Work} {a : Auction} {qs : List QuoteIdx}
    {reason : QuoteRejectReason} (h : w.1.Healthy max filled)
    (ha : w.1.market.auctions r = some a) (hopened : a.state = .opened) (hi : i < a.legs.length)
    (hnodup : qs.Nodup) (hqs : ∀ q ∈ qs, ∃ o, OnLeg w.1.market r i q o ∧ scope.Withdraws q o) :
    Clears max filled scope now qs w
      (qs.foldl (fun w q => w.releaseQuote r i now reason q) w) := by
  induction qs generalizing w with
  | nil => exact .refl h
  | cons q qs ih =>
      obtain ⟨hnot, hnodup⟩ := List.nodup_cons.mp hnodup
      obtain ⟨o, ho, hscope⟩ := hqs q (by simp)
      obtain ⟨x, hx, rfl⟩ := quote_of_market ho.offer
      obtain ⟨y, hy, rfl⟩ := request_of_market ha
      obtain ⟨leg, hleg⟩ : ∃ leg, y.leg i = some leg := by
        have : i < y.legs.length := by simpa [Request.auction] using hi
        exact ⟨y.legs[i], List.getElem?_eq_getElem this⟩
      obtain ⟨held, hret⟩ := h.retireQuote hy hopened hleg hx ho.request ho.leg ho.active
      have hstep : w.releaseQuote r i now reason q = (w.1.retireQuote r i q x.claim,
          w.2.push (if x.isLiveAt now then .quoteRejected q x.maker reason
            else .quoteExpired q x.maker)) := by
        simp only [Work.releaseQuote, hx]
      have hone := hret.clears now hx hscope
        (e := if x.isLiveAt now then .quoteRejected q x.maker reason else .quoteExpired q x.maker)
        (by split <;> rfl)
      rw [List.foldl_cons, hstep]
      refine hone.trans (ih hone.healthy (by rw [hone.auctions]; exact ha) hnodup ?_)
      intro q' hq'
      obtain ⟨o', ho', hscope'⟩ := hqs q' (by simp [hq'])
      have hne : q' ≠ q := fun heq => hnot (heq ▸ hq')
      refine ⟨o', ⟨?_, ho'.request, ho'.leg, ho'.active⟩, hscope'⟩
      rw [hone.offers, if_neg (by simpa using hne)]
      exact ho'.offer

/-- Releasing a leg visits, once each, the quotes standing on it except the one kept. -/
theorem Healthy.releaseLeg_eq {w : Work} {a : Auction} (now : Nat) (keep : Option Selection)
    (reason : QuoteRejectReason) (h : w.1.Healthy max filled) (hmax : max ≤ MAX_QUOTES_PER_LEG)
    (ha : w.1.market.auctions r = some a) (hopened : a.state = .opened) (hi : i < a.legs.length)
    (hactive : ∀ q o, w.1.market.offers q = some o → o.request = r → o.leg = i →
      o.state = .active) :
    ∃ qs : List QuoteIdx, w.releaseLeg r i keep now reason =
        qs.foldl (fun w q => w.releaseQuote r i now reason q) w ∧
      qs.Nodup ∧ qs.length ≤ max ∧
      ∀ q, q ∈ qs ↔ (∃ o, OnLeg w.1.market r i q o) ∧ ∀ s, keep = some s → s.quote ≠ q := by
  obtain ⟨y, hy, rfl⟩ := request_of_market ha
  obtain ⟨leg, hleg⟩ : ∃ leg, y.leg i = some leg := by
    have : i < y.legs.length := by simpa [Request.auction] using hi
    exact ⟨y.legs[i], List.getElem?_eq_getElem this⟩
  obtain ⟨qs, hchain, hlen, hwalk, -⟩ := walkLeg_of_chained h.chained hy hopened hleg
  have hlegOf : w.1.legOf r i = some leg := by simp [legOf, hy, hleg]
  have hdoomed : Work.doomed w.1 leg keep =
      qs.filter fun q => !(keep.any fun k => decide (k.quote = q)) := by
    rw [Work.doomed, hwalk]
    refine List.take_of_length_le ?_
    exact (List.length_filter_le _ _).trans (hlen.trans hmax)
  have hon : ∀ q, q ∈ qs ↔ ∃ o, OnLeg w.1.market r i q o := by
    intro q
    rw [hchain.mem q]
    constructor
    · rintro ⟨-, x, hx, hr, hxi⟩
      have ho := market_offers hx
      exact ⟨_, ho, hr, hxi, hactive q _ ho hr hxi⟩
    · rintro ⟨o, ho, hr, hoi, -⟩
      obtain ⟨x, hx, rfl⟩ := quote_of_market ho
      exact ⟨by simp, x, hx, hr, hoi⟩
  refine ⟨qs.filter fun q => !(keep.any fun k => decide (k.quote = q)), ?_, hchain.nodup.filter _,
    (List.length_filter_le _ _).trans hlen, fun q => ?_⟩
  · unfold Work.releaseLeg
    rw [hlegOf]
    dsimp only
    rw [hdoomed]
  · rw [List.mem_filter, hon q]
    cases keep <;> simp

/-- Releasing a leg clears every quote standing on it except the one kept. -/
theorem Healthy.releaseLeg {w : Work} {a : Auction} (scope : Scope) {keep : Option Selection}
    {reason : QuoteRejectReason} (h : w.1.Healthy max filled) (hmax : max ≤ MAX_QUOTES_PER_LEG)
    (ha : w.1.market.auctions r = some a) (hopened : a.state = .opened) (hi : i < a.legs.length)
    (hactive : ∀ q o, w.1.market.offers q = some o → o.request = r → o.leg = i →
      o.state = .active ∧ scope.Withdraws q o) :
    ∃ qs, Clears max filled scope now qs w (w.releaseLeg r i keep now reason) ∧
      qs.length ≤ max ∧
      ∀ q, q ∈ qs ↔ (∃ o, OnLeg w.1.market r i q o) ∧ ∀ s, keep = some s → s.quote ≠ q := by
  obtain ⟨qs, heq, hnodup, hlen, hmem⟩ := h.releaseLeg_eq now keep reason
    hmax ha hopened hi fun q o ho hr hoi => (hactive q o ho hr hoi).1
  refine ⟨qs, ?_, hlen, hmem⟩
  rw [heq]
  refine h.releaseQuotes ha hopened hi hnodup fun q hq => ?_
  obtain ⟨⟨o, ho⟩, -⟩ := (hmem q).mp hq
  exact ⟨o, ho, (hactive q o ho.offer ho.request ho.leg).2⟩

end Ledger

end RfqSettlement
