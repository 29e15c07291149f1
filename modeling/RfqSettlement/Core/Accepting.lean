/-
  RfqSettlement.Core.Accepting

  The commit phase of an accept.  Leg after leg the losers are released and the
  winner's claim is committed at its full amount; then the requester's claim is
  cut down to what the fills cost and committed too, and the request is settling.
  `Ledger.Filled` says what the legs add to the claims committed to the request.
-/

import RfqSettlement.Core.Trading

namespace RfqSettlement

/-- One leg of an accept: the winning offer, and the leg it is for. -/
structure Fill where
  quote : QuoteIdx
  offer : Offer
  leg : LegSpec
deriving DecidableEq, Repr

def Fill.selection (f : Fill) : Selection := ⟨f.quote, f.offer.price⟩

/-- The winner's claim, once committed. -/
def Fill.claim (r : ReqIdx) (f : Fill) : Claim :=
  ⟨f.offer.maker, f.leg.size * (UNIT - f.offer.price), .quote f.quote, .committed r⟩

namespace Ledger

variable {l : Ledger} {max i now : Nat} {filled : Option ReqIdx} {q : QuoteIdx} {r : ReqIdx}
  {o : Offer} {a : Auction} {w w' : Work} {f : Fill} {fills : List Fill}

-- ============================================================================
-- A winner
-- ============================================================================

/-- `l'` is `l` with the winning offer `o` consumed and its claim committed. -/
structure Consumes (l : Ledger) (max : Nat) (r : ReqIdx) (q : QuoteIdx) (o : Offer)
    (held : Option (ResIdx × Claim)) (l' : Ledger) : Prop where
  backing : l.market.Backing (.quote q) held
  healthy : l'.Healthy max (some r)
  market : l'.market = (l.market.pledge r held).setOffer q (some o.consume)
  sized : Sized l l'

theorem Healthy.consumeWinner (h : l.Healthy max (some r)) (ha : l.market.auctions r = some a)
    (hopened : a.state = .opened) (ho : OnLeg l.market r i q o) :
    ∃ held, Consumes l max r q o held (Engine.consumeWinner l r ⟨q, o.price⟩) := by
  obtain ⟨x, hx, rfl⟩ := quote_of_market ho.offer
  have howner : l.ownerClaim (.quote q) = some x.claim := by simp [Ledger.ownerClaim, hx]
  have hrequest := ho.request
  -- the quote is marked consumed first
  have hi₁ : (l.modifyQuote q fun q => q.setState .consumed).Intact :=
    h.intact.modifyQuote fun _ => rfl
  have hch₁ : (l.modifyQuote q fun q => q.setState .consumed).book.Chained max none := by
    rw [book_modifyQuote]
    exact h.chained.modifyQuote fun _ => rfl
  have hmarket₁ : (l.modifyQuote q fun q => q.setState .consumed).market =
      l.market.setOffer q (some x.offer.consume) := by
    rw [Ledger.market, book_modifyQuote, Book.market_modifyQuote (x := x) hx]
    rfl
  have hcoherent : ∀ held, l.market.Backing (.quote q) held →
      ((l.market.pledge r held).setOffer q (some x.offer.consume)).Coherent (some r) := by
    intro held hheld
    have := Market.Coherent.consume (o := x.offer) (hrequest ▸ h.coherent) ho.offer
      (hrequest ▸ ha) hopened hheld
    rwa [hrequest] at this
  unfold Engine.consumeWinner
  simp only [hx, Option.bind_some]
  cases hclaim : x.claim with
  | none =>
      refine ⟨none, h.intact.backing_none (hclaim ▸ howner), ⟨hi₁, hch₁, ?_⟩, hmarket₁,
        kept_modifyQuote.sized⟩
      rw [hmarket₁]
      exact hcoherent none (h.intact.backing_none (hclaim ▸ howner))
  | some c =>
      obtain ⟨res, e, hres, -, hs, hbacking⟩ := h.intact.backing_some (hclaim ▸ howner)
        fun k hk => h.reserved_of_active hx ho.active hclaim hk
      obtain ⟨y, hy, -⟩ := request_of_market ha
      simp only [hres, Option.bind_some, Option.map_some, Option.getD_some]
      have hc := hi₁.commitKeeping _ hres hs (Option.isSome_iff_exists.mpr ⟨y, hy⟩) (Nat.le_refl _)
      have hmarket : (CommitPhase.commit (l.modifyQuote q fun q => q.setState .consumed) c r
          res.amount).market =
            (l.market.pledge r (some (c, res.toClaim))).setOffer q (some x.offer.consume) := by
        rw [Ledger.market, hc.book, Book.market_commit, ← Ledger.market, hmarket₁]
        rfl
      refine ⟨some (c, res.toClaim), hbacking, ⟨hc.intact, ?_, ?_⟩, hmarket,
        (kept_modifyQuote.trans hc.kept).sized⟩
      · rw [hc.book]
        exact hch₁.of_same rfl rfl
      · rw [hmarket]
        exact hcoherent _ hbacking

-- ============================================================================
-- The legs
-- ============================================================================

/-- `w'` is `w` with `fills` carried out. -/
structure Filled (max : Nat) (r : ReqIdx) (now n : Nat) (fills : List Fill) (w w' : Work) :
    Prop where
  healthy : w'.1.Healthy max (some r)
  sized : Sized w.1 w'.1
  steps : Market.Steps now (.filling r) w.1.market w'.1.market
  auctions : w'.1.market.auctions = w.1.market.auctions
  claims : ∀ h k r', k.owner = .request r' →
    (w'.1.market.claims h = some k ↔ w.1.market.claims h = some k)
  noted : EventBuffer.Noted n w.2 w'.2
  adds : ∃ ks, Market.Adds r w.1.market w'.1.market ks ∧
    (w.1.market.Backed now → (∀ f ∈ fills, now < f.offer.expiresAt) → ks = fills.map (Fill.claim r))

theorem Filled.trans {w'' : Work} {n n' : Nat} {fills' : List Fill}
    (h : Filled max r now n fills w w') (h' : Filled max r now n' fills' w' w'')
    (hc : w.1.market.Coherent (some r)) :
    Filled max r now (n + n') (fills ++ fills') w w'' where
  healthy := h'.healthy
  sized := h.sized.trans h'.sized
  steps := h.steps.trans h'.steps
  auctions := h'.auctions.trans h.auctions
  claims c k r' hk := (h'.claims c k r' hk).trans (h.claims c k r' hk)
  noted := h.noted.trans h'.noted
  adds := by
    obtain ⟨ks, hks, hexact⟩ := h.adds
    obtain ⟨ks', hks', hexact'⟩ := h'.adds
    refine ⟨ks ++ ks', hks.trans hks', fun hb hlive => ?_⟩
    rw [hexact hb fun f hf => hlive f (by simp [hf]),
      hexact' (hb.steps_of hc h.steps rfl) fun f hf => hlive f (by simp [hf]),
      List.map_append]

/-- An offer's claim is on record while it is live, at the price of its leg. -/
theorem backing_of_live {m : Market} {held : Option (ResIdx × Claim)} {leg : LegSpec}
    (hc : m.Coherent filled) (hb : m.Backed now) (ho : OnLeg m r i q o)
    (ha : m.auctions r = some a) (hleg : a.legs[i]? = some leg) (hlive : now < o.expiresAt)
    (hheld : m.Backing (.quote q) held) :
    ∃ h k, held = some (h, k) ∧ k.account = o.maker ∧ k.amount = leg.size * (UNIT - o.price) ∧
      k.owner = .quote q := by
  cases held with
  | none =>
      obtain ⟨h, k, hk, howner⟩ := hb.offers q o ho.offer ho.active hlive
      exact absurd howner (hheld h k hk)
  | some v =>
      obtain ⟨h, k⟩ := v
      obtain ⟨o', leg', ho', hleg', hbacks⟩ := hc.offered h k q hheld.claim hheld.owner
      rw [ho.offer, Option.some.injEq] at ho'
      subst ho'
      have : m.legOf o = some leg := by simp [Market.legOf, ho.request, ha, ho.leg, hleg]
      rw [this, Option.some.injEq] at hleg'
      subst hleg'
      exact ⟨h, k, rfl, hbacks.account, hbacks.amount, hheld.owner⟩

/-- A fill of leg `i`: the winner stands on it. -/
structure Fits (m : Market) (r : ReqIdx) (a : Auction) (i : Nat) (f : Fill) : Prop where
  onLeg : OnLeg m r i f.quote f.offer
  leg : a.legs[i]? = some f.leg

theorem Healthy.acceptLeg (h : w.1.Healthy max (some r)) (hmax : max ≤ MAX_QUOTES_PER_LEG)
    (ha : w.1.market.auctions r = some a) (hopened : a.state = .opened)
    (hfit : Fits w.1.market r a i f)
    (hactive : ∀ q o, w.1.market.offers q = some o → o.request = r → i ≤ o.leg →
      o.state = .active) :
    Filled max r now max [f] w (Engine.acceptLeg w r i f.selection now) ∧
      ∀ q o, o.request = r → i < o.leg →
        ((Engine.acceptLeg w r i f.selection now).1.market.offers q = some o ↔
          w.1.market.offers q = some o) := by
  have hi : i < a.legs.length := (List.getElem?_eq_some_iff.mp hfit.leg).1
  obtain ⟨qs, hclear, hlen, hmem⟩ := h.releaseLeg (.filling r)
    hmax ha hopened hi
    fun q o ho hr hoi => ⟨hactive q o ho hr (Nat.le_of_eq hoi.symm), hr⟩
  unfold Engine.acceptLeg
  dsimp only
  generalize w.releaseLeg r i (some f.selection) now .outbid = w₁ at hclear
  have hnot : f.quote ∉ qs := fun hq => ((hmem _).mp hq).2 f.selection rfl rfl
  have ho₁ : OnLeg w₁.1.market r i f.quote f.offer := by
    refine ⟨?_, hfit.onLeg.request, hfit.onLeg.leg, hfit.onLeg.active⟩
    rw [hclear.offers, if_neg hnot]
    exact hfit.onLeg.offer
  have ha₁ : w₁.1.market.auctions r = some a := by
    rw [hclear.auctions]
    exact ha
  obtain ⟨held, hcons⟩ := hclear.healthy.consumeWinner ha₁ hopened ho₁
  rw [show (⟨f.quote, f.offer.price⟩ : Selection) = f.selection from rfl] at hcons
  have hstep : Market.Step now (.filling r) w₁.1.market
      (Engine.consumeWinner w₁.1 r f.selection).market := by
    rw [hcons.market]
    have := ho₁.request
    subst this
    exact .consume rfl ho₁.offer ho₁.active ha₁ hopened hcons.backing
  refine ⟨⟨hcons.healthy, hclear.sized.trans hcons.sized, hclear.steps.tail hstep, ?_, ?_,
    hclear.noted.mono hlen, ?_⟩, ?_⟩
  · show Market.auctions (Ledger.market _) = _
    rw [hcons.market]
    exact Market.auctions_pledge.trans hclear.auctions
  · intro c k r' hk
    rw [← hclear.claims c k r' hk]
    show Market.claims (Ledger.market _) c = some k ↔ _
    rw [hcons.market]
    have hbacking := hcons.backing
    cases held with
    | none => exact Iff.rfl
    | some v =>
        obtain ⟨c', k'⟩ := v
        have hne : k'.owner ≠ .request r' := by
          rw [hbacking.owner]
          simp
        simp only [Market.setOffer, Market.pledge, Market.commit, Market.putClaim,
          Market.dropClaim, Market.modifyTotals, Function.update_apply]
        split
        next heq =>
          subst heq
          rw [hbacking.claim]
          constructor
          · intro heq
            rw [Option.some.injEq] at heq
            exact absurd (show k'.owner = .request r' by rw [← hk, ← heq]; rfl) hne
          · intro heq
            rw [Option.some.injEq] at heq
            exact absurd (show k'.owner = .request r' by rw [← hk, ← heq]) hne
        next => exact Iff.rfl
  · have hsame := (hclear.pledges r).adds
    have hbacking := hcons.backing
    refine ⟨(held.map fun v => v.2.committedAs r v.2.amount).toList, ?_, ?_⟩
    · show Market.Adds r _ (Ledger.market _) _
      rw [hcons.market]
      have hput : Market.SamePledges r (w₁.1.market.pledge r held)
          ((w₁.1.market.pledge r held).setOffer f.quote (some f.offer.consume)) := .congr rfl rfl
      cases held with
      | none => exact hsame.trans hput.adds
      | some v =>
          have hcommit := Market.Adds.commit (r := r) v.2.amount hbacking
          simpa using (hsame.trans hcommit).trans hput.adds
    · intro hb hlive
      have hb₁ := hb.steps_of h.coherent hclear.steps rfl
      obtain ⟨c, k, rfl, hacc, hamount, howner⟩ := backing_of_live hclear.healthy.coherent hb₁ ho₁
        ha₁ hfit.leg (hlive f (by simp)) hbacking
      simp [Claim.committedAs, Fill.claim, hacc, hamount, howner]
  · intro q o hr hlt
    have hoffers : (Engine.consumeWinner w₁.1 r f.selection).market.offers q =
        if q = f.quote then some f.offer.consume else w₁.1.market.offers q := by
      rw [hcons.market]
      simp only [Market.setOffer, Function.update_apply, Market.offers_pledge]
    show (Engine.consumeWinner w₁.1 r f.selection).market.offers q = some o ↔ _
    rw [hoffers, hclear.offers]
    have hleg := hfit.onLeg.leg
    split
    next heq =>
      subst heq
      rw [hfit.onLeg.offer, Option.some.injEq, Option.some.injEq]
      constructor
      · rintro rfl
        simp only [Offer.consume] at hlt
        omega
      · rintro rfl
        omega
    next =>
      split
      next hq =>
        obtain ⟨⟨o', ho'⟩, -⟩ := (hmem q).mp hq
        rw [ho'.offer, Option.some.injEq]
        constructor
        · intro hnone
          cases hnone
        · rintro rfl
          have := ho'.leg
          omega
      next => exact Iff.rfl

theorem Filled.refl (h : w.1.Healthy max (some r)) : Filled max r now 0 [] w w :=
  ⟨h, Sized.refl _, .refl _, rfl, fun _ _ _ _ => Iff.rfl, .refl _, [],
    (Market.SamePledges.refl r _).adds, fun _ _ => rfl⟩

/-- The legs from `i` on. -/
theorem Healthy.acceptLegs (now : Nat) (h : w.1.Healthy max (some r)) (hmax : max ≤ MAX_QUOTES_PER_LEG)
    (ha : w.1.market.auctions r = some a) (hopened : a.state = .opened)
    (hfits : ∀ j f, fills[j]? = some f → Fits w.1.market r a (i + j) f)
    (hactive : ∀ q o, w.1.market.offers q = some o → o.request = r → i ≤ o.leg →
      o.state = .active) :
    Filled max r now (fills.length * max) fills w
      (Engine.acceptLegs r now i (fills.map Fill.selection) w) := by
  induction fills generalizing i w with
  | nil =>
      rw [List.length_nil, Nat.zero_mul]
      exact .refl h
  | cons f fills ih =>
      obtain ⟨hleg, hrest⟩ := h.acceptLeg hmax ha hopened (by simpa using hfits 0 f rfl)
        hactive
      have hlen : (f :: fills).length * max = max + fills.length * max := by
        rw [List.length_cons, Nat.succ_mul, Nat.add_comm]
      rw [hlen]
      refine hleg.trans (ih hleg.healthy (by rw [hleg.auctions]; exact ha) ?_ ?_) h.coherent
      · intro j g hg
        have hfit := hfits (j + 1) g (by simpa using hg)
        rw [show i + (j + 1) = i + 1 + j by omega] at hfit
        have hlt : i < g.offer.leg := by
          have := hfit.onLeg.leg
          omega
        exact ⟨⟨(hrest _ _ hfit.onLeg.request hlt).mpr hfit.onLeg.offer, hfit.onLeg.request,
          hfit.onLeg.leg, hfit.onLeg.active⟩, hfit.leg⟩
      · intro q o ho hr hlt
        exact hactive q o ((hrest q o hr (by omega)).mp ho) hr (by omega)

-- ============================================================================
-- The whole commit phase
-- ============================================================================

/-- The requester's claim, once committed. -/
def requesterClaim (r : ReqIdx) (a : Auction) (total : Nat) : Claim :=
  ⟨a.requester, total, .request r, .committed r⟩

/-- `w'` is `w` with the request accepted. -/
structure Accepted (max : Nat) (r : ReqIdx) (now : Nat) (a : Auction) (total : Nat) (intent : Event)
    (fills : List Fill) (w w' : Work) : Prop where
  healthy : w'.1.Healthy max none
  sized : Sized w.1 w'.1
  steps : Market.Steps now (.filling r) w.1.market w'.1.market
  settling : ∃ deadline,
    w'.1.market.auctions r = some (a.withState (.settling (Nonce.of r) deadline))
  events : ∃ b, EventBuffer.Noted (fills.length * max) w.2 b ∧ w'.2.events = b.events ++ [intent]
  adds : ∃ ks, Market.Adds r w.1.market w'.1.market (ks ++ [requesterClaim r a total]) ∧
    (w.1.market.Backed now → (∀ f ∈ fills, now < f.offer.expiresAt) → ks = fills.map (Fill.claim r))

/-- An open request's own claim is reserved. -/
theorem Healthy.reserved_of_opened {c : ResIdx} {k : Claim} (h : l.Healthy max none)
    (ha : l.market.auctions r = some a) (hopened : a.state = .opened)
    (hk : l.market.claims c = some k) (howner : k.owner = .request r) :
    ∃ e, k.status = .reserved e := by
  obtain ⟨a', ha', hb⟩ := h.coherent.auctioned c k r hk howner
  cases hs : k.status with
  | reserved e => exact ⟨e, rfl⟩
  | committed r' =>
      obtain rfl : r' = r := hb.committed r' hs
      obtain ⟨a'', ha'', ⟨n, d, hset⟩ | ⟨hnone, -⟩⟩ := h.coherent.committed c k r' hk hs
      · rw [ha, Option.some.injEq] at ha''
        rw [← ha'', hopened] at hset
        cases hset
      · cases hnone

theorem Healthy.commitAccept {engine : Engine} {acc : Engine.Acceptance} {events : EventBuffer}
    {res : Reservation} (h : engine.ledger.Healthy max none) (hmax : max ≤ MAX_QUOTES_PER_LEG)
    (hrecord : engine.ledger.request r = some acc.record) (hopened : acc.record.state = .opened)
    (hclaim : acc.record.claim = some acc.claim)
    (hres : engine.ledger.reservation acc.claim = some res) (htotal : acc.total ≤ res.amount)
    (hplan : acc.plan = fills.map Fill.selection)
    (hfits : ∀ j f, fills[j]? = some f → Fits engine.ledger.market r acc.record.auction j f)
    (hroom : events.headroom (fills.length * max + 1) = true) :
    Accepted max r now acc.record.auction acc.total
      (.submitIntent r (Nonce.of r) acc.record.requester acc.intent) fills (engine.ledger, events)
      (engine.commitAccept r acc now events) := by
  have ha := market_auctions hrecord
  have hactive : ∀ q o, engine.ledger.market.offers q = some o → o.request = r → 0 ≤ o.leg →
      o.state = .active := by
    intro q o ho hr _
    cases hs : o.state with
    | active => rfl
    | released => exact absurd hs (h.coherent.standing q o ho)
    | consumed =>
        rcases h.coherent.consumed q o ho hs with hnone | ⟨a', ha', hne⟩
        · cases hnone
        · rw [hr, ha, Option.some.injEq] at ha'
          exact absurd (ha' ▸ hopened) hne
  have hfilled := Healthy.acceptLegs now (w := (engine.ledger, events))
    ⟨h.intact, h.chained, h.coherent.fill⟩ hmax ha hopened
    (by simpa using hfits) hactive
  unfold Engine.commitAccept
  dsimp only
  rw [hplan]
  generalize Engine.acceptLegs r now 0 (fills.map Fill.selection) (engine.ledger, events) = w₁
    at hfilled
  -- the requester's claim is as it was
  have howner : engine.ledger.book.ownerClaim (.request r) = some (some acc.claim) := by
    rw [ownerClaim_book]
    simp [Ledger.ownerClaim, hrecord, hclaim]
  obtain ⟨k, hk, hkowner⟩ := h.intact.balanced.holder _ _ howner
  obtain ⟨e, hs⟩ := h.reserved_of_opened ha hopened hk hkowner
  have hkamount : acc.total ≤ k.amount := by
    obtain ⟨res', hres', rfl⟩ := reservation_of_claims hk
    rw [hres, Option.some.injEq] at hres'
    exact hres' ▸ htotal
  have hk₁ : w₁.1.market.claims acc.claim = some k := (hfilled.claims _ _ _ hkowner).mpr hk
  have howner₁ : w₁.1.ownerClaim (.request r) = some (some acc.claim) := by
    rw [← ownerClaim_book, ← hkowner]
    exact hfilled.healthy.intact.balanced.held _ _ hk₁
  obtain ⟨res₁, e₁, hres₁, -, hs₁, hreserved⟩ := hfilled.healthy.intact.backing_some howner₁
    fun k' hk' => by
      rw [hk₁, Option.some.injEq] at hk'
      exact ⟨e, hk' ▸ hs⟩
  have hclaims₁ := market_claims hres₁
  rw [hk₁, Option.some.injEq] at hclaims₁
  have ha₁ : w₁.1.market.auctions r = some acc.record.auction := by
    rw [hfilled.auctions]
    exact ha
  obtain ⟨y₁, hy₁, hauction₁⟩ := request_of_market ha₁
  -- it is cut down to the total and committed
  have hc := hfilled.healthy.intact.commitKeeping acc.total hres₁ hs₁
    (Option.isSome_iff_exists.mpr ⟨y₁, hy₁⟩) (by rw [hclaims₁] at hkamount; exact hkamount)
  obtain ⟨y₂, hy₂, hauction₂⟩ := request_of_market
    (l := CommitPhase.commit w₁.1 acc.claim r acc.total) (r := r) (a := acc.record.auction)
    (by rw [Ledger.market, hc.book, Book.market_commit]; exact ha₁)
  generalize hdeadline : saturatingAdd now engine.config.maxSettlingTime = deadline
  -- and the request is settling
  have hmarket : ((CommitPhase.commit w₁.1 acc.claim r acc.total).modifyRequest r
      fun r' => r'.setState (.settling (Nonce.of r) deadline)).market =
        (w₁.1.market.commit acc.claim k r acc.total).setAuction r
          (acc.record.auction.withState (.settling (Nonce.of r) deadline)) := by
    rw [Ledger.market, book_modifyRequest (f := fun r' => r'.setState _) fun _ => rfl,
      Book.market_modifyRequest (book_requests hy₂), hc.book, Book.market_commit, ← hclaims₁]
    simp only [Request.auction_setState, Request.auction_unlinked, hauction₂]
    rfl
  have hreserved : w₁.1.market.Reserved (.request r) acc.claim k := hclaims₁ ▸ hreserved
  have hself : ((w₁.1.market.commit acc.claim k r acc.total).setAuction r
      (acc.record.auction.withState (.settling (Nonce.of r) deadline))).auctions r =
        some (acc.record.auction.withState (.settling (Nonce.of r) deadline)) :=
    Function.update_self ..
  have hcoherent := (hfilled.healthy.coherent.settle ha₁
    hreserved).leaveFilled hself (by simp)
  have hkclaim : k.committedAs r acc.total = requesterClaim r acc.record.auction acc.total := by
    obtain ⟨a', ha', hb⟩ := h.coherent.auctioned _ k r hk hkowner
    rw [ha, Option.some.injEq] at ha'
    subst ha'
    simp [Claim.committedAs, requesterClaim, hb.account, hkowner]
  refine ⟨⟨?_, ?_, ?_⟩, ?_, ?_, ⟨deadline, ?_⟩, ⟨w₁.2, hfilled.noted, ?_⟩, ?_⟩
  · exact hc.intact.modifyRequest (fun _ => rfl) (fun _ => rfl) fun _ => rfl
  · show Book.Chained max none (Ledger.book _)
    rw [book_modifyRequest (f := fun r' => r'.setState _) fun _ => rfl]
    refine Book.Chained.setState ?_ (book_requests hy₂)
      ((congrArg Auction.state hauction₂).trans hopened) rfl
    rw [hc.book]
    exact hfilled.healthy.chained.of_same rfl rfl
  · show Market.Coherent none (Ledger.market _)
    rw [hmarket]
    exact hcoherent
  · exact hfilled.sized.trans (hc.kept.sized.trans kept_modifyRequest.sized)
  · show Market.Steps now _ _ (Ledger.market _)
    rw [hmarket]
    exact hfilled.steps.tail (.settle rfl ha₁ hopened hreserved hkamount)
  · show (Ledger.market _).auctions r = _
    rw [hmarket]
    exact hself
  · exact (hfilled.noted.push_of_headroom hroom).1
  · obtain ⟨ks, hks, hexact⟩ := hfilled.adds
    refine ⟨ks, ?_, hexact⟩
    show Market.Adds r _ (Ledger.market _) _
    rw [hmarket]
    have hput : Market.SamePledges r (w₁.1.market.commit acc.claim k r acc.total)
        ((w₁.1.market.commit acc.claim k r acc.total).setAuction r
          (acc.record.auction.withState (.settling (Nonce.of r) deadline))) := .congr rfl rfl
    have hcommit := Market.Adds.commit (r := r) acc.total hreserved
    rw [hkclaim] at hcommit
    simpa using hks.trans (hcommit.trans hput.adds)

end Ledger

end RfqSettlement
