/-
  RfqSettlement.Core.Handlers

  One specification for each handler: it refuses and leaves everything as it
  was, or it is carried out on a healthy ledger, by market steps within its
  scope.  `submitQuote` has a third outcome, which is its own: the standing quote
  is gone and the new one was refused.
-/

import RfqSettlement.Core.Planning

namespace RfqSettlement

namespace Ledger

/-- `w'` is `w` after a command was carried out. -/
structure Carried (max now : Nat) (scope : Scope) (w w' : Work) : Prop where
  healthy : w'.1.Healthy max none
  sized : Sized w.1 w'.1
  steps : Market.Steps now scope w.1.market w'.1.market
  quiet : EventBuffer.Quiet w.2 w'.2

variable {l : Ledger} {max i now : Nat} {q : QuoteIdx} {r : ReqIdx} {a : Auction} {w w' : Work}
  {engine : Engine} {events : EventBuffer} {scope : Scope}

theorem Carried.trans {w'' : Work} (h : Carried max now scope w w')
    (h' : Carried max now scope w' w'') : Carried max now scope w w'' :=
  ⟨h'.healthy, h.sized.trans h'.sized, h.steps.trans h'.steps, h.quiet.trans h'.quiet⟩

-- ============================================================================
-- SubmitRequest
-- ============================================================================

theorem checkLegs_ok {specs : List LegSpec} {acc total : Nat} (hacc : acc ≤ u64Max)
    (h : engine.checkLegs now specs acc = .ok total) :
    total = acc + (specs.map fun s => s.size * s.limit).sum ∧ total ≤ u64Max ∧
      ∀ s ∈ specs, 0 < s.size ∧ s.limit ≤ UNIT := by
  induction specs generalizing acc with
  | nil =>
      simp only [Engine.checkLegs, Except.ok.injEq] at h
      subst h
      exact ⟨by simp, hacc, by simp⟩
  | cons s specs ih =>
      unfold Engine.checkLegs at h
      split at h
      · cases h
      next hsize =>
      split at h
      · cases h
      next hlimit =>
      split at h
      · cases h
      split at h
      · cases h
      split at h
      · cases h
      split at h
      · cases h
      next acc₁ hsum =>
      obtain ⟨leg, hleg, hadd⟩ := Option.bind_eq_some_iff.mp hsum
      obtain ⟨-, rfl⟩ := Size.checkedMul_eq_some.mp hleg
      obtain ⟨hfits, rfl⟩ := checkedAdd_eq_some.mp hadd
      obtain ⟨rfl, hle, hall⟩ := ih hfits h
      refine ⟨by simp only [List.map_cons, List.sum_cons]; omega, hle, ?_⟩
      intro s' hs'
      rcases List.mem_cons.mp hs' with rfl | hs'
      · exact ⟨Nat.pos_of_ne_zero hsize, Nat.not_lt.mp hlimit⟩
      · exact hall s' hs'

/-- Every leg of a request is far enough from its contract's event. -/
theorem checkLegs_horizon {specs : List LegSpec} {acc total : Nat}
    (h : engine.checkLegs now specs acc = .ok total) :
    ∀ s ∈ specs, ∃ c, engine.ledger.contract s.contract = some c ∧
      now + engine.config.minHorizon < c.eventDate := by
  induction specs generalizing acc with
  | nil => simp
  | cons s specs ih =>
      unfold Engine.checkLegs at h
      split at h
      · cases h
      split at h
      · cases h
      split at h
      · cases h
      next c hcontract =>
      split at h
      · cases h
      next horizon hhorizon =>
      obtain ⟨hle, rfl⟩ := checkedSub_eq_some.mp hhorizon
      split at h
      · cases h
      next hfar =>
      split at h
      · cases h
      intro s' hs'
      rcases List.mem_cons.mp hs' with rfl | hs'
      · exact ⟨c, hcontract, by omega⟩
      · exact ih h s' hs'

theorem auction_new {requester deadline : Nat} {specs : List LegSpec} :
    (Request.new requester deadline
      (specs.map fun s => Leg.new s.contract s.side s.size s.limit)).auction =
        ⟨requester, deadline, .opened, specs⟩ := by
  simp [Request.auction, Request.new, Function.comp_def, Leg.spec, Leg.new]

/-- `m'` is `m` with one auction more at most, `a`, in time for its legs' contracts. -/
structure OneAuction (engine : Engine) (now : Nat) (a : Auction) (m m' : Market) : Prop where
  auctions : ∀ r x, m'.auctions r = some x → m.auctions r = some x ∨ x = a
  offers : m'.offers = m.offers
  future : now < a.deadline
  ttl : a.deadline ≤ now + engine.config.maxRequestTtl
  horizon : ∀ s ∈ a.legs, ∃ c, engine.ledger.contract s.contract = some c ∧
    now + engine.config.minHorizon < c.eventDate

theorem Healthy.submitRequest {requester deadline : Nat} {specs : List LegSpec}
    (h : engine.ledger.Healthy max none) (hlegs : engine.config.maxLegs ≤ MAX_LEGS) :
    (∃ err, engine.submitRequest requester deadline specs now events = engine.refuse events err) ∨
      ∃ w', engine.submitRequest requester deadline specs now events = engine.done w' ∧
        Carried max now .calm (engine.ledger, events) w' ∧
        OneAuction engine now ⟨requester, deadline, .opened, specs⟩ engine.ledger.market
          w'.1.market := by
  unfold Engine.submitRequest
  split
  · exact .inl ⟨_, rfl⟩
  next hnonempty =>
  split
  · exact .inl ⟨_, rfl⟩
  next hcount =>
  split
  · exact .inl ⟨_, rfl⟩
  next hfuture =>
  split
  · exact .inl ⟨_, rfl⟩
  next httl =>
  split
  · exact .inl ⟨_, rfl⟩
  next total hcheck =>
  split
  · exact .inl ⟨_, rfl⟩
  dsimp only
  obtain ⟨htotal, hsmall, hall⟩ := checkLegs_ok (Nat.zero_le _) hcheck
  rw [Nat.zero_add] at htotal
  generalize hrecord : Request.new requester deadline
    (specs.map fun s => Leg.new s.contract s.side s.size s.limit) = record
  have hauction : record.auction = ⟨requester, deadline, .opened, specs⟩ := hrecord ▸ auction_new
  have hnone : record.claim = none ∧ record.committedHead = none := hrecord ▸ ⟨rfl, rfl⟩
  by_cases hopen : CanOpenRequest engine.ledger record.requester total
  · obtain ⟨r, claim, l', heq, hi', hsized, hfresh, hclaim, hbook⟩ :=
      h.intact.openRequestReserving_ok hnone.1 hnone.2 hopen
    obtain ⟨⟨m, hadm⟩, -⟩ := hopen
    rw [heq]
    refine .inr ⟨_, rfl, ?_⟩
    have hrequester : record.requester = record.auction.requester := rfl
    have htotal' : total = record.auction.total := by
      rw [hauction]
      exact htotal
    have hmarket : l'.market = (engine.ledger.market.setAuction r record.auction).reserve claim
        ⟨record.auction.requester, record.auction.total, .request r,
          .reserved record.auction.deadline⟩ := by
      rw [Ledger.market, hbook, Book.market_reserve, Book.market_setRequest, htotal']
      rfl
    have hr : engine.ledger.market.auctions r = none := by
      show (engine.ledger.book.requests r).map Request.auction = none
      rw [hfresh]
      rfl
    have hstep : Market.Step now .calm engine.ledger.market l'.market := by
      rw [hmarket]
      refine .openAuction trivial hr hclaim (by rw [hauction]) ?_
        (book_totals hadm.account) ⟨?_, ?_⟩
      · rw [hauction]
        refine ⟨?_, ?_, fun s hs => (hall s hs).1, fun s hs => (hall s hs).2, ?_⟩
        · rintro rfl
          exact hnonempty rfl
        · exact (Nat.not_lt.mp hcount).trans hlegs
        · show (specs.map fun s => s.size * s.limit).sum ≤ u64Max
          rw [← htotal]
          exact hsmall
      · rw [← htotal']
        exact hadm.fits
      · rw [← htotal']
        exact hadm.covered
    refine ⟨⟨⟨hi', ?_, h.coherent.step_of hstep rfl⟩, hsized, .one hstep,
      EventBuffer.quiet_push rfl⟩, ?_⟩
    · rw [hbook]
      refine Book.Chained.reserve (Book.Chained.openRequest h.chained ?_ ?_)
      · rintro q x hx rfl
        obtain ⟨leg, hleg, -⟩ := h.coherent.offer q x.offer (market_offers hx)
        simp only [Market.legOf] at hleg
        rw [show engine.ledger.market.auctions x.offer.request = none from hr] at hleg
        cases hleg
      · rw [← hrecord]
        intro leg hleg
        obtain ⟨s, -, rfl⟩ := List.mem_map.mp hleg
        exact ⟨rfl, rfl⟩
    · refine ⟨fun r' x hx => ?_, by rw [hmarket]; rfl, Nat.not_le.mp hfuture, ?_,
        checkLegs_horizon hcheck⟩
      · rw [hmarket] at hx
        have hx : Function.update engine.ledger.market.auctions r (some record.auction) r' = some x := hx
        rw [Function.update_apply] at hx
        split at hx
        · exact .inr ((Option.some.inj hx).symm.trans hauction)
        · exact .inl hx
      · show deadline ≤ now + engine.config.maxRequestTtl
        omega
  · obtain ⟨err, heq⟩ := openRequestReserving_error hopen
    rw [heq]
    exact .inl ⟨_, rfl⟩

-- ============================================================================
-- RejectRequest
-- ============================================================================

/-- Between commands the offers of an open request are active. -/
theorem Healthy.active_of_opened {o : Offer} (h : l.Healthy max none)
    (ha : l.market.auctions r = some a) (hopened : a.state = .opened)
    (ho : l.market.offers q = some o) (hr : o.request = r) : o.state = .active := by
  cases hs : o.state with
  | active => rfl
  | released => exact absurd hs (h.coherent.standing q o ho)
  | consumed =>
      rcases h.coherent.consumed q o ho hs with hnone | ⟨a', ha', hne⟩
      · cases hnone
      · rw [hr, ha, Option.some.injEq] at ha'
        exact absurd (ha' ▸ hopened) hne

theorem Healthy.rejectLegs {n : Nat} (h : w.1.Healthy max none) (hmax : max ≤ MAX_QUOTES_PER_LEG)
    (ha : w.1.market.auctions r = some a) (hopened : a.state = .opened) (hn : n ≤ a.legs.length) :
    ∃ qs, Clears max none (.rejecting r) now qs w (Engine.rejectLegs w r n now) := by
  unfold Engine.rejectLegs
  induction n with
  | zero => exact ⟨[], .refl h⟩
  | succ n ih =>
      obtain ⟨qs, hclear⟩ := ih (by omega)
      rw [List.range_succ, List.foldl_append, List.foldl_cons, List.foldl_nil]
      generalize (List.range n).foldl
        (fun w leg => w.releaseLeg r leg none now .requestRejected) w = w₁ at hclear
      have ha₁ : w₁.1.market.auctions r = some a := by
        rw [hclear.auctions]
        exact ha
      obtain ⟨qs', hclear', -⟩ := hclear.healthy.releaseLeg (.rejecting r)
        (i := n) hmax ha₁ hopened (by omega)
        fun q o ho hr _ => ⟨hclear.healthy.active_of_opened ha₁ hopened ho hr, hr⟩
      exact ⟨_, hclear.trans hclear'⟩

/-- A request keeps its claim while the claims it owns stay. -/
theorem ownerClaim_request_eq {l' : Ledger} {y : Request} (hi : l.Intact) (hi' : l'.Intact)
    (hr : l.request r = some y) (hr' : (l'.request r).isSome)
    (hclaims : ∀ h k, k.owner = .request r →
      (l'.market.claims h = some k ↔ l.market.claims h = some k)) :
    l'.ownerClaim (.request r) = l.ownerClaim (.request r) := by
  obtain ⟨y', hy'⟩ := Option.isSome_iff_exists.mp hr'
  have howner' : l'.ownerClaim (.request r) = some y'.claim := by simp [Ledger.ownerClaim, hy']
  have howner : l.ownerClaim (.request r) = some y.claim := by simp [Ledger.ownerClaim, hr]
  rw [howner, howner', Option.some.injEq]
  cases hc' : y'.claim with
  | some c =>
      obtain ⟨k, hk, hown⟩ := hi'.balanced.holder (.request r) c (by
        rw [ownerClaim_book, howner', hc'])
      have := hi.balanced.held c k ((hclaims c k hown).mp hk)
      rw [hown, ownerClaim_book, howner, Option.some.injEq] at this
      exact this.symm
  | none =>
      cases hc : y.claim with
      | none => rfl
      | some c =>
          obtain ⟨k, hk, hown⟩ := hi.balanced.holder (.request r) c (by
            rw [ownerClaim_book, howner, hc])
          have := hi'.balanced.held c k ((hclaims c k hown).mpr hk)
          rw [hown, ownerClaim_book, howner', hc', Option.some.injEq] at this
          cases this

theorem Healthy.rejectRequest (h : engine.ledger.Healthy max none)
    (hmax : max ≤ MAX_QUOTES_PER_LEG) :
    (∃ err, engine.rejectRequest r now events = engine.refuse events err) ∨
      ∃ w', engine.rejectRequest r now events = engine.done w' ∧
        Carried max now (.rejecting r) (engine.ledger, events) w' ∧
        ∃ a, w'.1.market.auctions r = some a ∧ a.state = .rejected := by
  unfold Engine.rejectRequest
  split
  · exact .inl ⟨_, rfl⟩
  next record hrecord =>
  split
  · exact .inl ⟨_, rfl⟩
  next hopened =>
  split
  · exact .inl ⟨_, rfl⟩
  have hopened : record.state = .opened := by simpa using hopened
  have ha := market_auctions hrecord
  dsimp only
  refine .inr ⟨_, rfl, ?_⟩
  obtain ⟨qs, hclear⟩ := Healthy.rejectLegs (w := (engine.ledger, events))
    (n := record.nLegs) h hmax ha hopened (by simp [Request.nLegs, Request.auction])
  generalize Engine.rejectLegs (engine.ledger, events) r record.nLegs now = w₁ at hclear
  have ha₁ : w₁.1.market.auctions r = some record.auction := by
    rw [hclear.auctions]
    exact ha
  obtain ⟨y₁, hy₁, -⟩ := request_of_market ha₁
  have howner : w₁.1.ownerClaim (.request r) = some record.claim := by
    rw [ownerClaim_request_eq h.intact hclear.healthy.intact hrecord
      (Option.isSome_iff_exists.mpr ⟨y₁, hy₁⟩) fun c k hk => hclear.claims c k r hk]
    simp [Ledger.ownerClaim, hrecord]
  obtain ⟨held, hgo⟩ := hclear.healthy.intact.releaseIfHeld howner fun c k hc hk => by
    obtain ⟨k', hk', hown⟩ := hclear.healthy.intact.balanced.holder (.request r) c (by
      rw [ownerClaim_book, howner, hc])
    have hk : w₁.1.book.claims c = some k := hk
    rw [hk, Option.some.injEq] at hk'
    exact hclear.healthy.reserved_of_opened ha₁ hopened hk (hk' ▸ hown)
  have hmarket₂ : (w₁.1.releaseIfHeld record.claim).market = w₁.1.market.letGo held := by
    rw [Ledger.market, hgo.book, Book.market_letGo]
    rfl
  obtain ⟨y₂, hy₂, hauction₂⟩ := request_of_market (l := w₁.1.releaseIfHeld record.claim) (r := r)
    (a := record.auction) (by rw [hmarket₂, Market.auctions_letGo]; exact ha₁)
  have hmarket : ((w₁.1.releaseIfHeld record.claim).modifyRequest r
      fun r => r.setState .rejected).market =
        (w₁.1.market.letGo held).setAuction r (record.auction.withState .rejected) := by
    rw [Ledger.market, book_modifyRequest (f := fun r => r.setState .rejected) fun _ => rfl,
      Book.market_modifyRequest (book_requests hy₂), ← Ledger.market, hmarket₂]
    simp only [Request.auction_setState, Request.auction_unlinked, hauction₂]
  have hstep : Market.Step now (.rejecting r) w₁.1.market
      ((w₁.1.releaseIfHeld record.claim).modifyRequest r fun r => r.setState .rejected).market := by
    rw [hmarket]
    exact .reject rfl ha₁ hopened hgo.backing
  refine ⟨⟨⟨?_, ?_, hclear.healthy.coherent.step_of hstep rfl⟩, ?_,
    hclear.steps.tail hstep, hclear.noted.quiet⟩, record.auction.withState .rejected, ?_, rfl⟩
  · exact hgo.intact.modifyRequest (fun _ => rfl) (fun _ => rfl) fun _ => rfl
  · show Book.Chained max none (Ledger.book _)
    rw [book_modifyRequest (f := fun r => r.setState .rejected) fun _ => rfl]
    refine Book.Chained.setState ?_ (book_requests hy₂)
      ((congrArg Auction.state hauction₂).trans hopened) rfl
    rw [hgo.book]
    exact hclear.healthy.chained.letGo
  · exact hclear.sized.trans (hgo.kept.trans kept_modifyRequest).sized
  · show (Ledger.market _).auctions r = _
    rw [hmarket]
    exact Function.update_self ..

-- ============================================================================
-- SubmitQuote
-- ============================================================================

/-- A submission that passes the checks of `submit_quote`. -/
structure QuoteChecked (engine : Engine) (maker : Nat) (r : ReqIdx) (i price size expiresAt now : Nat)
    (events : EventBuffer) (standing : Option QuoteIdx) (contribution : Nat) (y : Request)
    (leg : Leg) : Prop where
  request : engine.ledger.request r = some y
  opened : y.state = .opened
  deadline : now < y.deadline
  found : y.leg i = some leg
  expiry : now < expiresAt
  ttl : expiresAt - now ≤ engine.config.maxQuoteTtl
  priced : price ≤ UNIT
  sized : leg.size ≤ size
  located : standing = engine.ledger.standingQuoteOf leg maker
  room : standing = none → leg.quoteCount < engine.config.maxQuotesPerLeg
  better : ∀ q x, standing = some q → engine.ledger.quote q = some x → price ≤ x.price
  amount : contribution = leg.size * (UNIT - price)
  fits : contribution ≤ u64Max
  headroom : events.headroom 2 = true

theorem checkQuote_ok {maker price size expiresAt contribution : Nat}
    {standing : Option QuoteIdx}
    (h : engine.checkQuote maker r i price size expiresAt now events = .ok (standing, contribution)) :
    ∃ y leg, QuoteChecked engine maker r i price size expiresAt now events standing contribution y
      leg := by
  unfold Engine.checkQuote at h
  split at h
  · cases h
  next y hy =>
  split at h
  · cases h
  next hopened =>
  split at h
  · cases h
  next hdeadline =>
  split at h
  · cases h
  next leg hleg =>
  split at h
  · cases h
  next hexpiry =>
  split at h
  · cases h
  next httl =>
  split at h
  · cases h
  next hprice =>
  split at h
  · cases h
  next hsize =>
  split at h
  · cases h
  next hreplace =>
  split at h
  · cases h
  next contribution' hcontribution =>
  split at h
  · cases h
  next hroom =>
  simp only [Except.ok.injEq, Prod.mk.injEq] at h
  obtain ⟨rfl, rfl⟩ := h
  obtain ⟨-, hfits, hamount⟩ := Size.makerContribution_eq_some.mp hcontribution
  refine ⟨y, leg, hy, by simpa using hopened, Nat.not_le.mp hdeadline, hleg, Nat.not_le.mp hexpiry,
    Nat.not_lt.mp httl, Nat.not_lt.mp hprice, Nat.not_lt.mp hsize, rfl, ?_, ?_, hamount, hamount ▸ hfits,
    by simpa using hroom⟩
  · intro hnone
    rw [hnone] at hreplace
    simp only [Engine.checkReplacement] at hreplace
    split at hreplace
    · cases hreplace
    next hlt => exact Nat.not_le.mp hlt
  · intro q x hq hx
    rw [hq] at hreplace
    simp only [Engine.checkReplacement, hx] at hreplace
    split at hreplace
    · cases hreplace
    next hlt => exact Nat.not_lt.mp hlt

/-- The standing quote found is one, of this maker, on this leg. -/
theorem Healthy.standing {maker : Nat} {y : Request} {leg : Leg} {filled : Option ReqIdx}
    (h : l.Healthy max filled) (hr : l.request r = some y) (hopened : y.state = .opened)
    (hleg : y.leg i = some leg) (hq : l.standingQuoteOf leg maker = some q) :
    ∃ x, l.quote q = some x ∧ x.maker = maker ∧ OnLeg l.market r i q x.offer := by
  obtain ⟨qs, hchain, -, hwalk, hall⟩ := walkLeg_of_chained h.chained hr hopened hleg
  obtain ⟨v, hv, rfl⟩ := Option.map_eq_some_iff.mp hq
  have hstored := hall v (List.mem_of_find?_eq_some hv)
  have hmatch : v.2.maker = maker ∧ v.2.state = .active := by
    simpa using List.find?_some hv
  obtain ⟨x, hx, hxr, hxi⟩ := hchain.stored (q := v.1) (hwalk ▸ List.mem_map_of_mem
    (List.mem_of_find?_eq_some hv))
  have hx : l.quote v.1 = some x := hx
  rw [hstored, Option.some.injEq] at hx
  subst hx
  exact ⟨v.2, hstored, hmatch.1, market_offers hstored, hxr, hxi, hmatch.2⟩

/-- What a submission may withdraw: the standing quote it replaces. -/
def replacementScope : Option QuoteIdx → Scope
  | some q => .replacing q
  | none => .calm

/-- `w₁` is `w` with the standing quote, if there is one, withdrawn. -/
structure Withdrawn (w : Work) (max : Nat) (r : ReqIdx) (i maker now : Nat)
    (standing : Option QuoteIdx) (w₁ : Work) : Prop where
  carried : Carried max now (replacementScope standing) w w₁
  auctions : w₁.1.market.auctions = w.1.market.auctions
  room : ∀ y₁ leg₁, w₁.1.request r = some y₁ → y₁.leg i = some leg₁ → leg₁.quoteCount < max
  untouched : standing = none → w₁ = w
  retired : ∀ q, standing = some q → ∃ x held, w.1.quote q = some x ∧
    Retires w.1 max none q x held w₁.1 ∧
    w₁ = (w.1.retireQuote r i q x.claim, w.2.push (.quoteRejected q maker .replaced))

theorem Healthy.withdrawStanding {maker price size expiresAt contribution : Nat} {y : Request}
    {leg : Leg} {standing : Option QuoteIdx} (h : engine.ledger.Healthy max none)
    (hmax : engine.config.maxQuotesPerLeg = max)
    (hc : QuoteChecked engine maker r i price size expiresAt now events standing contribution y
      leg) :
    Withdrawn (engine.ledger, events) max r i maker now standing
      (Engine.withdrawStanding (engine.ledger, events) maker r i standing) := by
  obtain ⟨qs, hchain, hlen⟩ :=
    h.chained.opened (book_requests hc.request) hc.opened hc.found
  cases hstanding : standing with
  | none =>
      refine ⟨⟨h, Sized.refl _, .refl _, .refl _⟩, rfl, ?_, fun _ => rfl, by simp⟩
      intro y₁ leg₁ hy₁ hleg₁
      have hy₁ : engine.ledger.request r = some y₁ := hy₁
      rw [hc.request, Option.some.injEq] at hy₁
      subst hy₁
      rw [hc.found, Option.some.injEq] at hleg₁
      subst hleg₁
      exact hmax ▸ hc.room hstanding
  | some q =>
      obtain ⟨x, hx, -, ho⟩ := h.standing (q := q) hc.request hc.opened hc.found
        (by rw [← hc.located, hstanding])
      obtain ⟨held, hret⟩ := h.retireQuote hc.request hc.opened hc.found hx ho.request ho.leg ho.active
      have heq : Engine.withdrawStanding (engine.ledger, events) maker r i (some q) =
          (engine.ledger.retireQuote r i q x.claim,
            events.push (.quoteRejected q maker .replaced)) := by
        simp only [Engine.withdrawStanding, hx, Option.bind_some]
      have hstep : Market.Step now (replacementScope (some q)) engine.ledger.market
          (engine.ledger.retireQuote r i q x.claim).market := hret.step hx (by exact rfl)
      have hauctions : (engine.ledger.retireQuote r i q x.claim).market.auctions =
          engine.ledger.market.auctions := by
        rw [hret.market]
        exact Market.auctions_letGo
      rw [heq]
      refine ⟨⟨hret.healthy, hret.sized, .one hstep, EventBuffer.quiet_push rfl⟩, hauctions, ?_,
        by simp, ?_⟩
      · intro y₁ leg₁ hy₁ hleg₁
        have hy₁ : (engine.ledger.retireQuote r i q x.claim).request r = some y₁ := hy₁
        have hopened₁ : y₁.state = .opened := by
          have ha := market_auctions hc.request
          rw [← hauctions, market_auctions hy₁, Option.some.injEq] at ha
          exact (congrArg Auction.state ha).trans hc.opened
        obtain ⟨qs₁, hchain₁, -⟩ := hret.healthy.chained.opened (book_requests hy₁) hopened₁
          hleg₁
        rw [hchain₁.count]
        -- what stands there now stood there before, with one more
        have hsub : q :: qs₁ ⊆ qs := by
          intro q' hq'
          rcases List.mem_cons.mp hq' with rfl | hq'
          · exact (hchain.mem _).mpr ⟨by simp, x, hx, ho.request, ho.leg⟩
          · obtain ⟨x', hx', hxr, hxi⟩ := hchain₁.stored hq'
            have ho' := market_offers (l := engine.ledger.retireQuote r i q x.claim) hx'
            rw [hret.market] at ho'
            simp only [Market.setOffer, Function.update_apply, Market.offers_letGo] at ho'
            split at ho'
            · cases ho'
            · obtain ⟨x'', hx'', hoffer⟩ := quote_of_market ho'
              exact (hchain.mem q').mpr ⟨by simp, x'', hx'',
                (congrArg Offer.request hoffer).trans hxr, (congrArg Offer.leg hoffer).trans hxi⟩
        have hnot : q ∉ qs₁ := by
          intro hq
          obtain ⟨x', hx', -⟩ := hchain₁.stored hq
          have ho' := market_offers (l := engine.ledger.retireQuote r i q x.claim) hx'
          rw [hret.market] at ho'
          simp [Market.setOffer] at ho'
        have hle := (List.subperm_of_subset (List.nodup_cons.mpr ⟨hnot, hchain₁.nodup⟩)
          hsub).length_le
        simp only [List.length_cons] at hle
        omega
      · intro q' hq'
        rw [Option.some.injEq] at hq'
        subst hq'
        exact ⟨x, held, hx, hret, rfl⟩

/-- Publishing writes a cache. -/
theorem Healthy.publishSelection {filled : Option ReqIdx} (h : w.1.Healthy max filled) :
    (w.publishSelection r i now).1.Healthy max filled ∧
      Touches w.1 (w.publishSelection r i now).1 ∧
      EventBuffer.Quiet w.2 (w.publishSelection r i now).2 := by
  unfold Work.publishSelection
  split
  · exact ⟨h, Touches.refl _, .refl _⟩
  split
  · exact ⟨h, Touches.refl _, .refl _⟩
  next best _ =>
  split
  · exact ⟨h, Touches.refl _, .refl _⟩
  have ht : Touches w.1 (w.1.modifyLeg r i fun leg => { leg with published := some best.price }) :=
    touches_modifyLeg fun _ => rfl
  refine ⟨ht.healthy h ?_, ht, EventBuffer.quiet_push rfl⟩
  rw [modifyLeg, book_modifyRequest (f := fun r => r.modifyLeg i _) fun _ => rfl]
  refine h.chained.modifyRequest fun x _ _ => ?_
  have hlegs : (x.legs.modify i fun leg => { leg with published := some best.price }).map
      (fun leg => (leg.quotesHead, leg.quoteCount)) =
        x.legs.map fun leg => (leg.quotesHead, leg.quoteCount) := by
    refine List.ext_getElem? fun j => ?_
    rw [List.getElem?_map, List.getElem?_map, List.getElem?_modify]
    cases x.legs[j]? with
    | none => rfl
    | some leg =>
        simp only [Option.map_eq_map, Option.map_some, Option.some.injEq]
        split <;> rfl
  simp only [Book.chainLegs, Request.modifyLeg, hlegs]

/-- Opening a quote and linking it in front of its chain. -/
theorem Healthy.openQuote (record : Quote) (amount : Nat) {y : Request} {leg : Leg}
    (h : l.Healthy max none) (hmax : max ≤ MAX_QUOTES_PER_LEG) (hscope : scope.Opens)
    (hnew : record.claim = none ∧ record.state = .active) (hr : l.request record.request = some y)
    (hopened : y.state = .opened) (hleg : y.leg record.leg = some leg)
    (hsize : leg.size ≤ record.size) (hprice : record.price ≤ UNIT)
    (hamount : amount = leg.size * (UNIT - record.price)) (hroom : leg.quoteCount < max)
    (hopen : CanOpenQuote l record.maker amount) :
    ∃ q claim l', l.openQuoteReserving record amount = (.ok (q, claim), l') ∧
      (l'.linkQuote record.request record.leg q).Healthy max none ∧
      Sized l (l'.linkQuote record.request record.leg q) ∧
      Market.Step now scope l.market (l'.linkQuote record.request record.leg q).market ∧
      (l'.linkQuote record.request record.leg q).market.offers q = some record.offer ∧
      (∀ q' o, (l'.linkQuote record.request record.leg q).market.offers q' = some o →
        l.market.offers q' = some o ∨ o = record.offer) ∧
      (l'.linkQuote record.request record.leg q).market.auctions = l.market.auctions := by
  obtain ⟨q, claim, l', heq, hi', hsized, hfresh, hclaim, hbook⟩ :=
    h.intact.openQuoteReserving_ok hnew.1 hopen
  obtain ⟨⟨m, hadm⟩, -⟩ := hopen
  have ha := market_auctions hr
  have hspec : y.auction.legs[record.leg]? = some leg.spec := by
    simp only [Request.auction, List.getElem?_map]
    rw [show y.legs[record.leg]? = some leg from hleg]
    rfl
  have hmarket : l'.market = (l.market.setOffer q (some record.offer)).reserve claim
      ⟨record.offer.maker, leg.spec.size * (UNIT - record.offer.price), .quote q,
        .reserved record.offer.expiresAt⟩ := by
    rw [Ledger.market, hbook, Book.market_reserve, Book.market_setQuote, hamount]
    rfl
  have hq : l.market.offers q = none := by
    show (l.book.quotes q).map Quote.offer = none
    rw [hfresh]
    rfl
  have hstep : Market.Step now scope l.market l'.market := by
    rw [hmarket]
    refine .openOffer hscope hq hclaim hnew.2 ha hopened hspec hsize hprice
      (book_totals hadm.account) ⟨?_, ?_⟩
    · have := hadm.fits
      rw [hamount] at this
      exact this
    · have := hadm.covered
      rw [hamount] at this
      exact this
  have hself : l'.market.offers q = some record.offer := by
    rw [hmarket]
    exact Function.update_self ..
  obtain ⟨x, hx, hoffer⟩ := quote_of_market hself
  obtain ⟨y', hy', hunlinked⟩ : ∃ y', l'.request record.request = some y' ∧
      y'.unlinked = y.unlinked := by
    have hsame : l'.book.requests record.request = l.book.requests record.request := by
      rw [hbook]
      rfl
    rw [book_requests hr] at hsame
    exact Option.map_eq_some_iff.mp hsame
  have hopened' : y'.state = .opened := (congrArg Request.state hunlinked).trans hopened
  have hleg' : y'.leg record.leg = some leg := by
    have hlegs : y'.unlinked.legs = y.unlinked.legs := congrArg Request.legs hunlinked
    exact (congrArg (·[record.leg]?) hlegs).trans hleg
  have hch' : l'.book.Chained max (some q) := by
    rw [hbook]
    refine Book.Chained.reserve (h.chained.setQuote ?_ ?_ ?_)
    · intro q' hne
      simp [hne]
    · intro x y hx
      rw [hfresh] at hx
      cases hx
    · intro x y _ hl
      exact absurd rfl hl
  have hmax' : max ≤ 255 := hmax.trans (by decide)
  obtain ⟨ht, hch⟩ := linkQuote_of_chained hch' hy' hopened' hleg' hx
    (congrArg Offer.request hoffer) (congrArg Offer.leg hoffer) hroom hmax'
  have hcoherent : l'.market.Coherent none := by
    have hc : l.market.Coherent scope.filled := by
      cases scope with
      | calm => exact h.coherent
      | replacing => exact h.coherent
      | _ => cases hscope
    have hfilled : scope.filled = none := by
      cases scope with
      | calm => rfl
      | replacing => rfl
      | _ => cases hscope
    exact hfilled ▸ hc.step hstep
  refine ⟨q, claim, l', heq, ⟨ht.intact hi', hch, ht.market ▸ hcoherent⟩, hsized.trans ht.kept.sized,
    ht.market ▸ hstep, ?_, fun q' o ho => ?_, by rw [ht.market, hmarket]; rfl⟩
  · rw [ht.market]
    exact hself
  · rw [ht.market, hmarket] at ho
    have ho : Function.update l.market.offers q (some record.offer) q' = some o := ho
    rw [Function.update_apply] at ho
    split at ho
    · exact .inr (Option.some.inj ho).symm
    · exact .inl ho

/-- The three outcomes of a quote: refused by a check; refused by the ledger, once
    the standing quote is gone; or opened. -/
theorem Healthy.submitQuote {maker price size expiresAt : Nat} (h : engine.ledger.Healthy max none)
    (hconfig : engine.config.maxQuotesPerLeg = max) (hmax : max ≤ MAX_QUOTES_PER_LEG) :
    (∃ err, engine.submitQuote maker r i price size expiresAt now events =
      engine.refuse events err) ∨
    ∃ standing contribution y leg w₁,
      QuoteChecked engine maker r i price size expiresAt now events standing contribution y leg ∧
      Withdrawn (engine.ledger, events) max r i maker now standing w₁ ∧
      ((¬ CanOpenQuote w₁.1 maker contribution ∧ ∃ err arrival,
        engine.submitQuote maker r i price size expiresAt now events =
          Engine.refuse { engine with ledger := w₁.1, nextArrival := arrival } w₁.2 (.ledger err)) ∨
      (CanOpenQuote w₁.1 maker contribution ∧ ∃ w' arrival,
        engine.submitQuote maker r i price size expiresAt now events =
          Engine.done { engine with nextArrival := arrival } w' ∧
        Carried max now (replacementScope standing) w₁ w' ∧
        (∃ q, w'.1.market.offers q = some ⟨maker, r, i, price, size, expiresAt, .active⟩) ∧
        (∀ q o, w'.1.market.offers q = some o → w₁.1.market.offers q = some o ∨
          o = ⟨maker, r, i, price, size, expiresAt, .active⟩) ∧
        w'.1.market.auctions = w₁.1.market.auctions)) := by
  unfold Engine.submitQuote
  split
  · exact .inl ⟨_, rfl⟩
  next standing contribution hcheck =>
  obtain ⟨y, leg, hc⟩ := checkQuote_ok hcheck
  have hw := h.withdrawStanding hconfig hc
  dsimp only
  generalize Engine.withdrawStanding (engine.ledger, events) maker r i standing = w₁ at hw
  refine .inr ⟨standing, contribution, y, leg, w₁, hc, hw, ?_⟩
  generalize hrecord : Quote.new maker r i price size expiresAt engine.nextArrival = record
  have hoffer : record.offer = ⟨maker, r, i, price, size, expiresAt, .active⟩ := hrecord ▸ rfl
  by_cases hopen : CanOpenQuote w₁.1 maker contribution
  · refine .inr ⟨hopen, ?_⟩
    have ha₁ : w₁.1.market.auctions r = some y.auction := by
      rw [hw.auctions]
      exact market_auctions hc.request
    obtain ⟨y₁, hy₁, hauction₁⟩ := request_of_market ha₁
    have hopened₁ : y₁.state = .opened := (congrArg Auction.state hauction₁).trans hc.opened
    obtain ⟨leg₁, hleg₁, hspec₁⟩ : ∃ leg₁, y₁.leg i = some leg₁ ∧ leg₁.spec = leg.spec := by
      have hlegs : (y₁.legs.map Leg.spec)[i]? = (y.legs.map Leg.spec)[i]? :=
        congrArg (·[i]?) (congrArg Auction.legs hauction₁)
      rw [List.getElem?_map, List.getElem?_map, show y.legs[i]? = some leg from hc.found,
        Option.map_some] at hlegs
      exact Option.map_eq_some_iff.mp hlegs
    have hsize₁ : leg₁.size = leg.size := congrArg LegSpec.size hspec₁
    have hscope : (replacementScope standing).Opens := by
      cases standing <;> exact trivial
    obtain ⟨q, claim, l', heq, hhealthy, hsized, hstep, hself, hothers, hauctions⟩ :=
      hw.carried.healthy.openQuote record contribution hmax
        hscope (hrecord ▸ ⟨rfl, rfl⟩) (hrecord ▸ hy₁) hopened₁ (hrecord ▸ hleg₁)
        (hrecord ▸ hsize₁ ▸ hc.sized) (hrecord ▸ hc.priced)
        (by rw [hsize₁, ← hrecord]; exact hc.amount) (hw.room y₁ leg₁ hy₁ hleg₁)
        (hrecord ▸ hopen)
    rw [heq]
    have hreq : record.request = r := hrecord ▸ rfl
    have hlegi : record.leg = i := hrecord ▸ rfl
    rw [hreq, hlegi] at hhealthy hsized hstep hself hothers hauctions
    obtain ⟨hpub, ht, hquiet⟩ := Healthy.publishSelection (w := (l'.linkQuote r i q, w₁.2)) (r := r)
      (i := i) hhealthy
    refine ⟨_, _, rfl, ⟨hpub, hsized.trans ht.kept.sized, .one (ht.market ▸ hstep), hquiet⟩,
      ⟨q, ?_⟩, ?_, ?_⟩
    · rw [ht.market, ← hoffer]
      exact hself
    · rw [ht.market, ← hoffer]
      exact hothers
    · rw [ht.market]
      exact hauctions
  · refine .inl ⟨hopen, ?_⟩
    obtain ⟨err, heq⟩ := openQuoteReserving_error (l := w₁.1) record contribution
      (by rw [← hrecord]; exact hopen)
    rw [heq]
    exact ⟨err, _, rfl⟩

end Ledger

end RfqSettlement
