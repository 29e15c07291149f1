/-
  RfqSettlement.Core.Coherence

  The invariants of the market.

  `Market.Coherent` says which claim may stand for what: a reserved claim for an
  active offer or an open auction, at exactly the amount that one needs; a
  committed claim for a consumed offer of the request it is committed to, or for
  that request itself.  While an accept is at work on a request, that request is
  still open and some of its claims are already committed; `filled` names it.

  `Market.Backed` is about time: an offer that is still live, and an open auction
  before its deadline, have not lost their claim.
-/

import RfqSettlement.Core.Market

namespace RfqSettlement

namespace Market

/-- An offer big enough for its leg, whose contribution can be represented. -/
structure FairOffer (o : Offer) (leg : LegSpec) : Prop where
  size : leg.size ≤ o.size
  price : o.price ≤ UNIT
  fits : leg.size * (UNIT - o.price) ≤ u64Max

/-- A claim that stands for an offer. -/
structure BacksOffer (k : Claim) (o : Offer) (leg : LegSpec) : Prop where
  account : k.account = o.maker
  amount : k.amount = leg.size * (UNIT - o.price)
  reserved : ∀ e, k.status = .reserved e → o.state = .active ∧ e = o.expiresAt
  committed : ∀ r, k.status = .committed r → o.state = .consumed ∧ r = o.request

/-- A claim that stands for a request. -/
structure BacksAuction (k : Claim) (r : ReqIdx) (a : Auction) : Prop where
  account : k.account = a.requester
  reserved : ∀ e, k.status = .reserved e → a.state = .opened ∧ e = a.deadline ∧ k.amount = a.total
  committed : ∀ r', k.status = .committed r' → r' = r

structure Coherent (filled : Option ReqIdx) (m : Market) : Prop where
  fair : ∀ r a, m.auctions r = some a → a.Fair
  nonce : ∀ r a n d, m.auctions r = some a → a.state = .settling n d → n = Nonce.of r
  offer : ∀ q o, m.offers q = some o → ∃ leg, m.legOf o = some leg ∧ FairOffer o leg
  standing : ∀ q o, m.offers q = some o → o.state ≠ .released
  consumed : ∀ q o, m.offers q = some o → o.state = .consumed →
    filled = some o.request ∨ ∃ a, m.auctions o.request = some a ∧ a.state ≠ .opened
  single : ∀ h h' k k', m.claims h = some k → m.claims h' = some k' → k.owner = k'.owner → h = h'
  offered : ∀ h k q, m.claims h = some k → k.owner = .quote q →
    ∃ o leg, m.offers q = some o ∧ m.legOf o = some leg ∧ BacksOffer k o leg
  auctioned : ∀ h k r, m.claims h = some k → k.owner = .request r →
    ∃ a, m.auctions r = some a ∧ BacksAuction k r a
  committed : ∀ h k r, m.claims h = some k → k.status = .committed r →
    ∃ a, m.auctions r = some a ∧ (a.IsSettling ∨ filled = some r ∧ a.state = .opened)

variable {m m' : Market} {filled : Option ReqIdx} {scope : Scope} {now : Nat} {h : ResIdx}
  {k : Claim} {q : QuoteIdx} {r : ReqIdx} {o : Offer} {a : Auction} {leg : LegSpec}
  {held : Option (ResIdx × Claim)}

-- ============================================================================
-- What the invariant reads
-- ============================================================================

theorem legOf_congr (h : m'.auctions = m.auctions) : m'.legOf o = m.legOf o := by
  simp only [legOf, h]

/-- Closing an auction, or moving it on, leaves its legs. -/
theorem legOf_setAuction {st : RequestState} (ha : m.auctions r = some a) :
    (m.setAuction r (a.withState st)).legOf o = m.legOf o := by
  simp only [legOf, setAuction, Function.update_apply]
  split
  next heq => rw [heq, ha]; rfl
  next => rfl

/-- A new auction leaves the legs of the others. -/
theorem legOf_setAuction_fresh (hr : m.auctions r = none) (hleg : m.legOf o = some leg) :
    (m.setAuction r a).legOf o = some leg := by
  have hne : o.request ≠ r := by
    rintro heq
    simp [legOf, heq, hr] at hleg
  simpa only [legOf, setAuction, Function.update_apply, if_neg hne] using hleg

/-- The invariant reads claims, auctions and offers only. -/
theorem Coherent.congr (hc : m.Coherent filled) (hclaims : m'.claims = m.claims)
    (hauctions : m'.auctions = m.auctions) (hoffers : m'.offers = m.offers) :
    m'.Coherent filled := by
  refine ⟨?_, ?_, ?_, ?_, ?_, ?_, ?_, ?_, ?_⟩
  · rw [hauctions]
    exact hc.fair
  · rw [hauctions]
    exact hc.nonce
  · intro q o ho
    obtain ⟨leg, hleg, hf⟩ := hc.offer q o (hoffers ▸ ho)
    exact ⟨leg, (legOf_congr hauctions).trans hleg, hf⟩
  · rw [hoffers]
    exact hc.standing
  · rw [hoffers, hauctions]
    exact hc.consumed
  · rw [hclaims]
    exact hc.single
  · intro h k q hk hq
    obtain ⟨o, leg, ho, hleg, hb⟩ := hc.offered h k q (hclaims ▸ hk) hq
    exact ⟨o, leg, hoffers ▸ ho, (legOf_congr hauctions).trans hleg, hb⟩
  · rw [hclaims, hauctions]
    exact hc.auctioned
  · rw [hclaims, hauctions]
    exact hc.committed

/-- Nothing is consumed before its request is at work. -/
theorem Coherent.fill (hc : m.Coherent none) : m.Coherent filled where
  fair := hc.fair
  nonce := hc.nonce
  offer := hc.offer
  standing := hc.standing
  consumed q o ho hs := .inr (by simpa using hc.consumed q o ho hs)
  single := hc.single
  offered := hc.offered
  auctioned := hc.auctioned
  committed h k r hk hs := by
    obtain ⟨a, ha, hset | ⟨hnone, -⟩⟩ := hc.committed h k r hk hs
    · exact ⟨a, ha, .inl hset⟩
    · cases hnone

/-- Once the request being filled has left `opened`, the exception is over. -/
theorem Coherent.leaveFilled (hc : m.Coherent (some r)) (ha : m.auctions r = some a)
    (hstate : a.state ≠ .opened) : m.Coherent none where
  fair := hc.fair
  nonce := hc.nonce
  offer := hc.offer
  standing := hc.standing
  consumed q o ho hs := by
    rcases hc.consumed q o ho hs with heq | hsome
    · rw [Option.some.injEq] at heq
      exact .inr ⟨a, heq ▸ ha, hstate⟩
    · exact .inr hsome
  single := hc.single
  offered := hc.offered
  auctioned := hc.auctioned
  committed h k r' hk hs := by
    obtain ⟨a', ha', hset | ⟨heq, hopened⟩⟩ := hc.committed h k r' hk hs
    · exact ⟨a', ha', .inl hset⟩
    · rw [Option.some.injEq] at heq
      subst heq
      rw [ha, Option.some.injEq] at ha'
      exact absurd (ha' ▸ hopened) hstate

-- ============================================================================
-- Claims come and go
-- ============================================================================

theorem Coherent.dropClaim (hc : m.Coherent filled) (h : ResIdx) (k : Claim) :
    (m.dropClaim h k).Coherent filled := by
  have hsub : ∀ h' k', (m.dropClaim h k).claims h' = some k' → m.claims h' = some k' := by
    intro h' k' hk'
    simp only [Market.dropClaim, Function.update_apply] at hk'
    split at hk'
    · cases hk'
    · exact hk'
  exact ⟨hc.fair, hc.nonce, hc.offer, hc.standing, hc.consumed,
    fun h₁ h₂ k₁ k₂ hk₁ hk₂ => hc.single h₁ h₂ k₁ k₂ (hsub _ _ hk₁) (hsub _ _ hk₂),
    fun h' k' q hk' => hc.offered h' k' q (hsub _ _ hk'),
    fun h' k' r hk' => hc.auctioned h' k' r (hsub _ _ hk'),
    fun h' k' r hk' => hc.committed h' k' r (hsub _ _ hk')⟩

theorem Coherent.modifyTotals {account : Nat} {f : Totals → Totals} (hc : m.Coherent filled) :
    (m.modifyTotals account f).Coherent filled :=
  hc.congr rfl rfl rfl

theorem Coherent.free (hc : m.Coherent filled) : (m.free h k).Coherent filled :=
  hc.modifyTotals.dropClaim h k

theorem Coherent.discharge (hc : m.Coherent filled) : (m.discharge h k).Coherent filled :=
  hc.modifyTotals.dropClaim h k

theorem Coherent.letGo (hc : m.Coherent filled) : (m.letGo held).Coherent filled := by
  cases held with
  | none => exact hc
  | some x => exact hc.free

/-- A claim may come where its owner has none, and asks for it. -/
theorem Coherent.putClaim (hc : m.Coherent filled)
    (hfree : ∀ h' k', m.claims h' = some k' → k'.owner ≠ k.owner)
    (hoffered : ∀ q, k.owner = .quote q →
      ∃ o leg, m.offers q = some o ∧ m.legOf o = some leg ∧ BacksOffer k o leg)
    (hauctioned : ∀ r, k.owner = .request r → ∃ a, m.auctions r = some a ∧ BacksAuction k r a)
    (hcommitted : ∀ r, k.status = .committed r →
      ∃ a, m.auctions r = some a ∧ (a.IsSettling ∨ filled = some r ∧ a.state = .opened)) :
    (m.putClaim h k).Coherent filled := by
  have hcases : ∀ h' k', (m.putClaim h k).claims h' = some k' →
      h' = h ∧ k' = k ∨ h' ≠ h ∧ m.claims h' = some k' := by
    intro h' k' hk'
    simp only [Market.putClaim, Function.update_apply] at hk'
    split at hk'
    next heq => exact .inl ⟨heq, by simpa [eq_comm] using hk'⟩
    next hne => exact .inr ⟨hne, hk'⟩
  refine ⟨hc.fair, hc.nonce, hc.offer, hc.standing, hc.consumed, ?_, ?_, ?_, ?_⟩
  · intro h₁ h₂ k₁ k₂ hk₁ hk₂ howner
    rcases hcases _ _ hk₁ with ⟨hh₁, hk₁'⟩ | ⟨-, hk₁'⟩
    · rcases hcases _ _ hk₂ with ⟨hh₂, -⟩ | ⟨-, hk₂'⟩
      · rw [hh₁, hh₂]
      · exact absurd (hk₁' ▸ howner.symm) (hfree _ _ hk₂')
    · rcases hcases _ _ hk₂ with ⟨-, hk₂'⟩ | ⟨-, hk₂'⟩
      · exact absurd (hk₂' ▸ howner) (hfree _ _ hk₁')
      · exact hc.single _ _ _ _ hk₁' hk₂' howner
  · intro h' k' q hk' hq
    rcases hcases _ _ hk' with ⟨rfl, rfl⟩ | ⟨-, hk'⟩
    · exact hoffered q hq
    · exact hc.offered h' k' q hk' hq
  · intro h' k' r hk' hr
    rcases hcases _ _ hk' with ⟨rfl, rfl⟩ | ⟨-, hk'⟩
    · exact hauctioned r hr
    · exact hc.auctioned h' k' r hk' hr
  · intro h' k' r hk' hs
    rcases hcases _ _ hk' with ⟨rfl, rfl⟩ | ⟨-, hk'⟩
    · exact hcommitted r hs
    · exact hc.committed h' k' r hk' hs

/-- After its claim is let go an owner has none. -/
theorem Coherent.unclaimed_letGo {owner : ResOwner} (hc : m.Coherent filled)
    (hheld : m.Backing owner held) : (m.letGo held).Backing owner none := by
  cases held with
  | none => exact hheld
  | some x =>
      obtain ⟨h, k⟩ := x
      obtain ⟨hk, rfl, -, -⟩ := hheld
      intro h' k' hk' howner
      have hk' : Function.update m.claims h none h' = some k' := hk'
      rw [Function.update_apply] at hk'
      split at hk'
      next => cases hk'
      next hne => exact hne (hc.single _ _ _ _ hk' hk howner)

-- ============================================================================
-- Offers
-- ============================================================================

/-- An offer may go once it has no claim. -/
theorem Coherent.dropOffer (hc : m.Coherent filled) (hheld : m.Backing (.quote q) none) :
    (m.setOffer q none).Coherent filled := by
  have hsub : ∀ q' o', (m.setOffer q none).offers q' = some o' → m.offers q' = some o' := by
    intro q' o' ho'
    simp only [setOffer, Function.update_apply] at ho'
    split at ho'
    · cases ho'
    · exact ho'
  refine ⟨hc.fair, hc.nonce, fun q' o' ho' => hc.offer q' o' (hsub _ _ ho'),
    fun q' o' ho' => hc.standing q' o' (hsub _ _ ho'),
    fun q' o' ho' => hc.consumed q' o' (hsub _ _ ho'), hc.single, ?_, hc.auctioned, hc.committed⟩
  intro h k q' hk hq'
  obtain ⟨o', leg, ho', hleg, hb⟩ := hc.offered h k q' hk hq'
  have hne : q' ≠ q := by
    rintro rfl
    exact hheld h k hk hq'
  refine ⟨o', leg, ?_, hleg, hb⟩
  simpa only [setOffer, Function.update_apply, if_neg hne] using ho'

/-- An offer may be put, or rewritten, if it is fair and its claim still suits it. -/
theorem Coherent.putOffer (hc : m.Coherent filled) (hfair : ∃ leg, m.legOf o = some leg ∧ FairOffer o leg)
    (hstate : o.state ≠ .released)
    (hconsumed : o.state = .consumed → filled = some o.request)
    (hbacks : ∀ h k, m.claims h = some k → k.owner = .quote q →
      ∃ leg, m.legOf o = some leg ∧ BacksOffer k o leg) :
    (m.setOffer q (some o)).Coherent filled := by
  have hcases : ∀ q' o', (m.setOffer q (some o)).offers q' = some o' →
      o' = o ∨ m.offers q' = some o' := by
    intro q' o' ho'
    simp only [setOffer, Function.update_apply] at ho'
    split at ho'
    · exact .inl (by simpa [eq_comm] using ho')
    · exact .inr ho'
  refine ⟨hc.fair, hc.nonce, ?_, ?_, ?_, hc.single, ?_, hc.auctioned, hc.committed⟩
  · intro q' o' ho'
    rcases hcases q' o' ho' with rfl | ho'
    · exact hfair
    · exact hc.offer q' o' ho'
  · intro q' o' ho'
    rcases hcases q' o' ho' with rfl | ho'
    · exact hstate
    · exact hc.standing q' o' ho'
  · intro q' o' ho' hs
    rcases hcases q' o' ho' with rfl | ho'
    · exact .inl (hconsumed hs)
    · exact hc.consumed q' o' ho' hs
  · intro h k q' hk hq'
    by_cases heq : q' = q
    · subst heq
      obtain ⟨leg, hleg, hb⟩ := hbacks h k hk hq'
      exact ⟨o, leg, by simp [setOffer], hleg, hb⟩
    · obtain ⟨o', leg, ho', hleg, hb⟩ := hc.offered h k q' hk hq'
      refine ⟨o', leg, ?_, hleg, hb⟩
      simpa only [setOffer, Function.update_apply, if_neg heq] using ho'

-- ============================================================================
-- Auctions
-- ============================================================================

theorem Coherent.openAuction (hc : m.Coherent filled) (hr : m.auctions r = none) (hfair : a.Fair)
    (hstate : a.state = .opened) : (m.setAuction r a).Coherent filled := by
  have hold : ∀ r' a', m.auctions r' = some a' → (m.setAuction r a).auctions r' = some a' := by
    intro r' a' ha'
    have hne : r' ≠ r := by
      rintro rfl
      rw [hr] at ha'
      cases ha'
    simpa only [setAuction, Function.update_apply, if_neg hne] using ha'
  have hcases : ∀ r' a', (m.setAuction r a).auctions r' = some a' →
      a' = a ∨ m.auctions r' = some a' := by
    intro r' a' ha'
    simp only [setAuction, Function.update_apply] at ha'
    split at ha'
    · exact .inl (by simpa [eq_comm] using ha')
    · exact .inr ha'
  refine ⟨?_, ?_, ?_, hc.standing, ?_, hc.single, ?_, ?_, ?_⟩
  · intro r' a' ha'
    rcases hcases r' a' ha' with rfl | ha'
    · exact hfair
    · exact hc.fair r' a' ha'
  · intro r' a' n d ha' hs
    rcases hcases r' a' ha' with rfl | ha'
    · rw [hstate] at hs
      cases hs
    · exact hc.nonce r' a' n d ha' hs
  · intro q o ho
    obtain ⟨leg, hleg, hf⟩ := hc.offer q o ho
    exact ⟨leg, legOf_setAuction_fresh hr hleg, hf⟩
  · intro q o ho hs
    rcases hc.consumed q o ho hs with hfilled | ⟨a', ha', hne⟩
    · exact .inl hfilled
    · exact .inr ⟨a', hold _ _ ha', hne⟩
  · intro h k q hk hq
    obtain ⟨o, leg, ho, hleg, hb⟩ := hc.offered h k q hk hq
    exact ⟨o, leg, ho, legOf_setAuction_fresh hr hleg, hb⟩
  · intro h k r' hk hr'
    obtain ⟨a', ha', hb⟩ := hc.auctioned h k r' hk hr'
    exact ⟨a', hold _ _ ha', hb⟩
  · intro h k r' hk hs
    obtain ⟨a', ha', hset⟩ := hc.committed h k r' hk hs
    exact ⟨a', hold _ _ ha', hset⟩

/-- An auction may move on, away from `opened`, if the claims it still owns are
    committed and the claims committed to it allow it. -/
theorem Coherent.closeAuction (st : RequestState) (hc : m.Coherent filled)
    (ha : m.auctions r = some a) (hst : st ≠ .opened)
    (hnonce : ∀ n d, st = .settling n d → n = Nonce.of r)
    (hown : ∀ h k e, m.claims h = some k → k.owner = .request r → k.status ≠ .reserved e)
    (hcommitted : ∀ h k, m.claims h = some k → k.status = .committed r →
      (a.withState st).IsSettling) :
    (m.setAuction r (a.withState st)).Coherent filled := by
  have hself : (m.setAuction r (a.withState st)).auctions r = some (a.withState st) := by
    simp [setAuction]
  have hother : ∀ r', r' ≠ r → (m.setAuction r (a.withState st)).auctions r' = m.auctions r' := by
    intro r' hne
    simp only [setAuction, Function.update_apply, if_neg hne]
  refine ⟨?_, ?_, ?_, hc.standing, ?_, hc.single, ?_, ?_, ?_⟩
  · intro r' a' ha'
    by_cases heq : r' = r
    · subst heq
      rw [hself, Option.some.injEq] at ha'
      exact ha' ▸ (hc.fair _ _ ha).withState
    · exact hc.fair r' a' (hother r' heq ▸ ha')
  · intro r' a' n d ha' hs
    by_cases heq : r' = r
    · subst heq
      rw [hself, Option.some.injEq] at ha'
      exact hnonce n d (by rw [← hs, ← ha']; rfl)
    · exact hc.nonce r' a' n d (hother r' heq ▸ ha') hs
  · intro q o ho
    obtain ⟨leg, hleg, hf⟩ := hc.offer q o ho
    exact ⟨leg, (legOf_setAuction ha).trans hleg, hf⟩
  · intro q o ho hs
    by_cases heq : o.request = r
    · exact .inr ⟨_, by rw [heq]; exact hself, hst⟩
    · rw [hother _ heq]
      exact hc.consumed q o ho hs
  · intro h k q hk hq
    obtain ⟨o, leg, ho, hleg, hb⟩ := hc.offered h k q hk hq
    exact ⟨o, leg, ho, (legOf_setAuction ha).trans hleg, hb⟩
  · intro h k r' hk hr'
    obtain ⟨a', ha', hb⟩ := hc.auctioned h k r' hk hr'
    by_cases heq : r' = r
    · subst heq
      rw [ha, Option.some.injEq] at ha'
      subst ha'
      exact ⟨_, hself, hb.account, fun e he => absurd he (hown h k e hk hr'), hb.committed⟩
    · exact ⟨a', (hother r' heq).trans ha', hb⟩
  · intro h k r' hk hs
    by_cases heq : r' = r
    · subst heq
      exact ⟨_, hself, .inl (hcommitted h k hk hs)⟩
    · rw [hother r' heq]
      exact hc.committed h k r' hk hs

-- ============================================================================
-- Every step keeps it
-- ============================================================================

/-- Before its own claim is let go, an owner that is not there has none. -/
theorem Coherent.unclaimed_fresh_offer (hc : m.Coherent filled) (hq : m.offers q = none) :
    m.Backing (.quote q) none := by
  intro h k hk howner
  obtain ⟨o, leg, ho, -⟩ := hc.offered h k q hk howner
  rw [hq] at ho
  cases ho

theorem Coherent.unclaimed_fresh_auction (hc : m.Coherent filled) (hr : m.auctions r = none) :
    m.Backing (.request r) none := by
  intro h k hk howner
  obtain ⟨a, ha, -⟩ := hc.auctioned h k r hk howner
  rw [hr] at ha
  cases ha

theorem Coherent.consume (hc : m.Coherent (some o.request)) (ho : m.offers q = some o)
    (ha : m.auctions o.request = some a) (hopened : a.state = .opened)
    (hheld : m.Backing (.quote q) held) :
    ((m.pledge o.request held).setOffer q (some o.consume)).Coherent (some o.request) := by
  have hput : ∀ {m : Market}, m.Coherent (some o.request) → m.offers q = some o →
      m.Backing (.quote q) none → (m.setOffer q (some o.consume)).Coherent (some o.request) := by
    intro m hc ho hnone
    obtain ⟨leg, hleg, hf⟩ := hc.offer q o ho
    exact hc.putOffer ⟨leg, hleg, hf.size, hf.price, hf.fits⟩ (by simp [Offer.consume])
      (fun _ => rfl) fun h k hk howner => absurd howner (hnone h k hk)
  cases held with
  | none => exact hput hc ho hheld
  | some x =>
      obtain ⟨h, k⟩ := x
      have hnone := hc.unclaimed_letGo hheld
      obtain ⟨hk, howner, ⟨e, hs⟩, -⟩ := hheld
      obtain ⟨o', leg, ho', hleg, hb⟩ := hc.offered h k q hk howner
      rw [ho, Option.some.injEq] at ho'
      subst ho'
      have hdrop := hput (m := (m.modifyTotals k.account fun t => { t with
          reserved := t.reserved - k.amount, committed := t.committed + k.amount }).dropClaim h k)
        (hc.modifyTotals.dropClaim h k) ho hnone
      refine hdrop.putClaim (h := h) (k := k.committedAs o.request k.amount) ?_ ?_ ?_ ?_
      · intro h' k' hk' heq
        exact hnone h' k' hk' (heq.trans howner)
      · intro q' hq'
        obtain rfl : q = q' := by simpa [Claim.committedAs, howner] using hq'
        refine ⟨o.consume, leg, by simp [setOffer], hleg, hb.account, hb.amount, ?_, ?_⟩
        · intro e he
          cases he
        · intro r hr
          cases hr
          exact ⟨rfl, rfl⟩
      · intro r hr
        simp [Claim.committedAs, howner] at hr
      · intro r hr
        cases hr
        exact ⟨a, ha, .inr ⟨rfl, hopened⟩⟩

theorem Coherent.settle {keep deadline : Nat} (hc : m.Coherent (some r))
    (ha : m.auctions r = some a) (hheld : m.Backing (.request r) (some (h, k))) :
    ((m.commit h k r keep).setAuction r
      (a.withState (.settling (Nonce.of r) deadline))).Coherent (some r) := by
  have hnone := hc.unclaimed_letGo hheld
  obtain ⟨hk, howner, ⟨e, hs⟩, -⟩ := hheld
  obtain ⟨a', ha', hb⟩ := hc.auctioned h k r hk howner
  rw [ha, Option.some.injEq] at ha'
  subst ha'
  have hdrop : ((m.modifyTotals k.account fun t => { t with
      reserved := t.reserved - k.amount, committed := t.committed + keep }).dropClaim h k).Coherent
        (some r) := hc.modifyTotals.dropClaim h k
  have hclose := hdrop.closeAuction (.settling (Nonce.of r) deadline) ha (by simp)
    (fun n d heq => by cases heq; rfl) (fun h' k' e' hk' howner' => absurd howner' (hnone h' k' hk'))
    fun h' k' _ _ => ⟨_, _, rfl⟩
  have hself := Function.update_self r (some (a.withState (.settling (Nonce.of r) deadline)))
    m.auctions
  refine hclose.putClaim (h := h) (k := k.committedAs r keep) ?_ ?_ ?_ ?_
  · intro h' k' hk' heq
    exact hnone h' k' hk' (heq.trans howner)
  · intro q hq
    simp [Claim.committedAs, howner] at hq
  · intro r' hr'
    obtain rfl : r = r' := by simpa [Claim.committedAs, howner] using hr'
    refine ⟨_, hself, hb.account, ?_, ?_⟩
    · intro e he
      cases he
    · intro r' hr'
      cases hr'
      rfl
  · intro r' hr'
    cases hr'
    exact ⟨_, hself, .inl ⟨_, _, rfl⟩⟩

theorem Coherent.reject (hc : m.Coherent none) (ha : m.auctions r = some a)
    (hopened : a.state = .opened) (hheld : m.Backing (.request r) held) :
    ((m.letGo held).setAuction r (a.withState .rejected)).Coherent none := by
  have hnone := hc.unclaimed_letGo hheld
  have hauctions : (m.letGo held).auctions = m.auctions := by cases held <;> rfl
  refine hc.letGo.closeAuction _ (by rw [hauctions, ha]) (by simp) (by simp)
    (fun h k e hk howner => absurd howner (hnone h k hk)) ?_
  intro h k hk hs
  obtain ⟨a', ha', ⟨n, d, hset⟩ | ⟨hfilled, -⟩⟩ := hc.letGo.committed h k r hk hs
  · rw [hauctions, ha, Option.some.injEq] at ha'
    rw [← ha', hopened] at hset
    cases hset
  · cases hfilled

theorem Coherent.resolve {st : RequestState} (hc : m.Coherent none) (ha : m.auctions r = some a)
    (hsettling : a.IsSettling) (hnone : ∀ h k, m.claims h = some k → k.status ≠ .committed r)
    (hst : st = .escrowed ∨ st = .settlementFailed) :
    (m.setAuction r (a.withState st)).Coherent none := by
  refine hc.closeAuction _ ha ?_ ?_ ?_ fun h k hk hs => absurd hs (hnone h k hk)
  · rcases hst with rfl | rfl <;> simp
  · rcases hst with rfl | rfl <;> simp
  · intro h k e hk howner hs
    obtain ⟨a', ha', hb⟩ := hc.auctioned h k r hk howner
    obtain ⟨n, d, hset⟩ := hsettling
    rw [ha, Option.some.injEq] at ha'
    have := (hb.reserved e hs).1
    rw [← ha', hset] at this
    cases this

/-- Coherence is kept by every step. -/
theorem Coherent.step (hc : m.Coherent scope.filled) (hstep : Step now scope m m') :
    m'.Coherent scope.filled := by
  cases hstep with
  | mirror => exact hc.modifyTotals
  | expire hk hs he => exact hc.free
  | openAuction hscope hr hh hstate hfair ht hadm =>
      have hnone := hc.unclaimed_fresh_auction hr
      refine (hc.openAuction hr hfair hstate).modifyTotals.putClaim hnone ?_ ?_ ?_
      · intro q hq
        cases hq
      · intro r' hr'
        cases hr'
        exact ⟨_, Function.update_self _ _ _, rfl,
          fun e he => by cases he; exact ⟨hstate, rfl, rfl⟩, fun r' hr' => by cases hr'⟩
      · intro r' hr'
        cases hr'
  | openOffer hscope hq hh hstate ha hopened hleg hsize hprice ht hadm =>
      rename_i q h o a leg t
      have hnone := hc.unclaimed_fresh_offer hq
      have hlegOf : m.legOf o = some leg := by simp [legOf, ha, hleg]
      have hfits : leg.size * (UNIT - o.price) ≤ u64Max := by
        have := hadm.fits
        omega
      have hput := hc.putOffer (q := q) ⟨leg, hlegOf, hsize, hprice, hfits⟩ (by simp [hstate])
        (by simp [hstate]) fun h' k' hk' howner' => absurd howner' (hnone h' k' hk')
      refine hput.modifyTotals.putClaim hnone ?_ ?_ ?_
      · intro q' hq'
        cases hq'
        exact ⟨o, leg, by simp [Market.modifyTotals, setOffer], hlegOf, rfl, rfl,
          fun e he => by cases he; exact ⟨hstate, rfl⟩, fun r hr => by cases hr⟩
      · intro r hr
        cases hr
      · intro r hr
        cases hr
  | withdraw hscope ho hheld => exact hc.letGo.dropOffer (hc.unclaimed_letGo hheld)
  | consume hscope ho hstate ha hopened hheld =>
      subst hscope
      exact Coherent.consume hc ho ha hopened hheld
  | settle hscope ha hopened hheld hkeep =>
      subst hscope
      exact Coherent.settle hc ha hheld
  | reject hscope ha hopened hheld =>
      subst hscope
      exact Coherent.reject hc ha hopened hheld
  | discharge hscope hk hs => exact hc.discharge
  | resolve hscope ha hsettling hnone hst =>
      subst hscope
      exact Coherent.resolve hc ha hsettling hnone hst
  | close hscope ho hstate hheld => exact hc.dropOffer hheld

theorem Coherent.steps (hc : m.Coherent scope.filled) (hsteps : Steps now scope m m') :
    m'.Coherent scope.filled := by
  induction hsteps with
  | refl => exact hc
  | tail _ hstep ih => exact ih.step hstep

theorem Coherent.step_of (hc : m.Coherent filled) (hstep : Step now scope m m')
    (hfilled : scope.filled = filled) : m'.Coherent filled := by
  subst hfilled
  exact hc.step hstep

theorem Coherent.steps_of (hc : m.Coherent filled) (hsteps : Steps now scope m m')
    (hfilled : scope.filled = filled) : m'.Coherent filled := by
  subst hfilled
  exact hc.steps hsteps

-- ============================================================================
-- Nothing live loses its claim
-- ============================================================================

def Claimed (m : Market) (owner : ResOwner) : Prop := ∃ h k, m.claims h = some k ∧ k.owner = owner

structure Backed (now : Nat) (m : Market) : Prop where
  offers : ∀ q o, m.offers q = some o → o.state = .active → now < o.expiresAt →
    m.Claimed (.quote q)
  auctions : ∀ r a, m.auctions r = some a → a.state = .opened → now < a.deadline →
    m.Claimed (.request r)

variable {owner : ResOwner} {now' : Nat}

theorem Backed.mono (hb : m.Backed now) (h : now ≤ now') : m.Backed now' where
  offers q o ho hs hlive := hb.offers q o ho hs (by omega)
  auctions r a ha hs hlive := hb.auctions r a ha hs (by omega)

theorem Claimed.dropClaim (hc : m.Claimed owner) (hk : m.claims h = some k) (hne : k.owner ≠ owner) :
    (m.dropClaim h k).Claimed owner := by
  obtain ⟨h', k', hk', rfl⟩ := hc
  have hhne : h' ≠ h := by
    rintro rfl
    rw [hk, Option.some.injEq] at hk'
    exact hne (by rw [hk'])
  exact ⟨h', k', by simpa only [Market.dropClaim, Function.update_apply, if_neg hhne] using hk', rfl⟩

theorem Claimed.letGo {owner' : ResOwner} (hc : m.Claimed owner) (hheld : m.Backing owner' held)
    (hne : owner' ≠ owner) : (m.letGo held).Claimed owner := by
  cases held with
  | none => exact hc
  | some x =>
      obtain ⟨hk, rfl, -, -⟩ := hheld
      exact Claimed.dropClaim (m := m.modifyTotals _ _) hc hk hne

theorem Claimed.putClaim (hc : m.Claimed owner) (hh : m.claims h = none) :
    (m.putClaim h k).Claimed owner := by
  obtain ⟨h', k', hk', rfl⟩ := hc
  have hhne : h' ≠ h := by
    rintro rfl
    rw [hh] at hk'
    cases hk'
  exact ⟨h', k', by simpa only [Market.putClaim, Function.update_apply, if_neg hhne] using hk', rfl⟩

theorem claimed_putClaim : (m.putClaim h k).Claimed k.owner :=
  ⟨h, k, by simp [Market.putClaim], rfl⟩

/-- A committed claim still stands for its owner. -/
theorem Claimed.commit {keep : Nat} (hc : m.Claimed owner) (hk : m.claims h = some k) :
    (m.commit h k r keep).Claimed owner := by
  obtain ⟨h', k', hk', rfl⟩ := hc
  by_cases heq : h' = h
  · subst heq
    rw [hk, Option.some.injEq] at hk'
    subst hk'
    exact claimed_putClaim
  · refine ⟨h', k', ?_, rfl⟩
    simpa only [Market.commit, Market.putClaim, Market.dropClaim, Market.modifyTotals,
      Function.update_apply, if_neg heq] using hk'

theorem Claimed.pledge (hc : m.Claimed owner) (hheld : m.Backing (.quote q) held) :
    (m.pledge r held).Claimed owner := by
  cases held with
  | none => exact hc
  | some x => exact hc.commit hheld.claim

@[simp] theorem auctions_letGo : (m.letGo held).auctions = m.auctions := by
  cases held <;> rfl
@[simp] theorem offers_letGo : (m.letGo held).offers = m.offers := by
  cases held <;> rfl
@[simp] theorem auctions_pledge : (m.pledge r held).auctions = m.auctions := by
  cases held <;> rfl
@[simp] theorem offers_pledge : (m.pledge r held).offers = m.offers := by
  cases held <;> rfl

/-- An owner whose claim is dropped was not live. -/
theorem Backed.dropClaim (hb : m.Backed now) (hk : m.claims h = some k)
    (hoffer : ∀ q o, m.offers q = some o → k.owner = .quote q → o.state = .active →
      o.expiresAt ≤ now)
    (hauction : ∀ r a, m.auctions r = some a → k.owner = .request r → a.state = .opened →
      a.deadline ≤ now) : (m.dropClaim h k).Backed now where
  offers q o ho hs hlive := by
    refine (hb.offers q o ho hs hlive).dropClaim hk fun howner => ?_
    have := hoffer q o ho howner hs
    omega
  auctions r a ha hs hlive := by
    refine (hb.auctions r a ha hs hlive).dropClaim hk fun howner => ?_
    have := hauction r a ha howner hs
    omega

theorem Backed.expire {e : Nat} (hb : m.Backed now) (hc : m.Coherent filled)
    (hk : m.claims h = some k) (hs : k.status = .reserved e) (he : e ≤ now) :
    (m.free h k).Backed now := by
  refine Backed.dropClaim (m := m.modifyTotals _ _) ⟨hb.offers, hb.auctions⟩ hk ?_ ?_
  · intro q o ho howner _
    obtain ⟨o', leg, ho', -, hbacks⟩ := hc.offered h k q hk howner
    have ho : m.offers q = some o := ho
    rw [ho, Option.some.injEq] at ho'
    rw [ho', ← (hbacks.reserved e hs).2]
    exact he
  · intro r a ha howner _
    obtain ⟨a', ha', hbacks⟩ := hc.auctioned h k r hk howner
    have ha : m.auctions r = some a := ha
    rw [ha, Option.some.injEq] at ha'
    rw [ha', ← (hbacks.reserved e hs).2.1]
    exact he

theorem Backed.discharge (hb : m.Backed now) (hc : m.Coherent none) (hk : m.claims h = some k)
    (hs : k.status = .committed r) : (m.discharge h k).Backed now := by
  refine Backed.dropClaim (m := m.modifyTotals _ _) ⟨hb.offers, hb.auctions⟩ hk ?_ ?_
  · intro q o ho howner hstate
    obtain ⟨o', leg, ho', -, hbacks⟩ := hc.offered h k q hk howner
    have ho : m.offers q = some o := ho
    rw [ho, Option.some.injEq] at ho'
    have := (hbacks.committed r hs).1
    rw [← ho', hstate] at this
    cases this
  · intro r' a ha howner hstate
    obtain ⟨a', ha', hbacks⟩ := hc.auctioned h k r' hk howner
    obtain rfl : r = r' := hbacks.committed r hs
    have ha : m.auctions r = some a := ha
    obtain ⟨a'', ha'', ⟨n, d, hset⟩ | ⟨hfilled, -⟩⟩ := hc.committed h k r hk hs
    · rw [ha, Option.some.injEq] at ha''
      rw [← ha'', hstate] at hset
      cases hset
    · cases hfilled

/-- Taking an offer off, or consuming it, unbacks no other owner. -/
theorem Backed.setOffer {o' : Option Offer} (hb : m.Backed now)
    (ho' : ∀ o, o' = some o → o.state ≠ .active) (hm : m'.offers = m.offers)
    (hm' : m'.auctions = m.auctions)
    (hkeep : ∀ owner, owner ≠ .quote q → m.Claimed owner → m'.Claimed owner) :
    (m'.setOffer q o').Backed now where
  offers q' o ho hs hlive := by
    simp only [Market.setOffer, Function.update_apply] at ho
    split at ho
    next heq => exact absurd hs (ho' o ho)
    next hne =>
      exact hkeep (.quote q') (by simpa using hne) (hb.offers q' o (hm ▸ ho) hs hlive)
  auctions r a ha hs hlive :=
    hkeep (.request r) (by simp) (hb.auctions r a (hm' ▸ ha) hs hlive)

theorem Backed.setAuction (hb : m.Backed now) (ha' : a.state ≠ .opened)
    (hm : m'.offers = m.offers) (hm' : m'.auctions = m.auctions)
    (hkeep : ∀ owner, owner ≠ .request r → m.Claimed owner → m'.Claimed owner) :
    (m'.setAuction r a).Backed now where
  offers q o ho hs hlive := hkeep (.quote q) (by simp) (hb.offers q o (hm ▸ ho) hs hlive)
  auctions r' a' ha hs hlive := by
    simp only [Market.setAuction, Function.update_apply] at ha
    split at ha
    next heq =>
      rw [Option.some.injEq] at ha
      exact absurd (ha ▸ hs) ha'
    next hne =>
      exact hkeep (.request r') (by simpa using hne) (hb.auctions r' a' (hm' ▸ ha) hs hlive)

theorem Backed.step (hb : m.Backed now) (hc : m.Coherent scope.filled)
    (hstep : Step now scope m m') : m'.Backed now := by
  cases hstep with
  | mirror => exact ⟨hb.offers, hb.auctions⟩
  | expire hk hs he => exact hb.expire hc hk hs he
  | openAuction hscope hr hh hstate hfair ht hadm =>
      refine ⟨fun q o ho hs hlive => (hb.offers q o ho hs hlive).putClaim hh, ?_⟩
      intro r' a' ha' hs hlive
      simp only [Market.reserve, Market.putClaim, Market.modifyTotals, Market.setAuction,
        Function.update_apply] at ha'
      split at ha'
      next heq =>
        subst heq
        exact claimed_putClaim
      next => exact (hb.auctions r' a' ha' hs hlive).putClaim hh
  | openOffer hscope hq hh hstate ha hopened hleg hsize hprice ht hadm =>
      refine ⟨?_, fun r a ha hs hlive => (hb.auctions r a ha hs hlive).putClaim hh⟩
      intro q' o' ho' hs hlive
      simp only [Market.reserve, Market.putClaim, Market.modifyTotals, Market.setOffer,
        Function.update_apply] at ho'
      split at ho'
      next heq =>
        subst heq
        exact claimed_putClaim
      next => exact (hb.offers q' o' ho' hs hlive).putClaim hh
  | withdraw hscope ho hheld =>
      exact hb.setOffer (by simp) offers_letGo auctions_letGo
        fun owner hne hcl => hcl.letGo hheld hne.symm
  | consume hscope ho hstate ha hopened hheld =>
      exact hb.setOffer (fun o' ho' => by cases ho'; simp [Offer.consume]) offers_pledge
        auctions_pledge fun owner _ hcl => hcl.pledge hheld
  | settle hscope ha hopened hheld hkeep =>
      exact hb.setAuction (by simp) rfl rfl fun owner _ hcl => hcl.commit hheld.claim
  | reject hscope ha hopened hheld =>
      exact hb.setAuction (by simp) offers_letGo auctions_letGo
        fun owner hne hcl => hcl.letGo hheld hne.symm
  | discharge hscope hk hs =>
      subst hscope
      exact hb.discharge hc hk hs
  | resolve hscope ha hsettling hnone hst =>
      refine hb.setAuction ?_ rfl rfl fun _ _ hcl => hcl
      rcases hst with rfl | rfl <;> simp
  | close hscope ho hstate hheld =>
      exact hb.setOffer (by simp) rfl rfl fun _ _ hcl => hcl

theorem Backed.steps (hb : m.Backed now) (hc : m.Coherent scope.filled)
    (hsteps : Steps now scope m m') : m'.Backed now := by
  induction hsteps with
  | refl => exact hb
  | tail hsteps hstep ih => exact ih.step (hc.steps hsteps) hstep

theorem Backed.steps_of (hb : m.Backed now) (hc : m.Coherent filled)
    (hsteps : Steps now scope m m') (hfilled : scope.filled = filled) : m'.Backed now := by
  subst hfilled
  exact hb.steps hc hsteps

end Market

end RfqSettlement
