/-
  RfqSettlement.Core.Settling

  Accepting, and what the answer to a settlement does: the claims committed to
  the request are discharged, its consumed quotes are closed and its state moves
  on, whichever answer it was.
-/

import RfqSettlement.Core.Handlers

namespace RfqSettlement

namespace Ledger

variable {l : Ledger} {max now : Nat} {q : QuoteIdx} {r : ReqIdx} {a : Auction} {w w' : Work}
  {engine : Engine} {events : EventBuffer} {scope : Scope}

-- ============================================================================
-- AcceptRequest
-- ============================================================================

/-- The one event the runtime acts on: the settlement intent of an accept. -/
def intentOf (r : ReqIdx) (acc : Engine.Acceptance) : Event :=
  .submitIntent r (Nonce.of r) acc.record.requester acc.intent

theorem Healthy.acceptRequest {expected : List ExpectedFill} (h : engine.ledger.Healthy max none)
    (hconfig : engine.config.maxQuotesPerLeg = max) (hmax : max ≤ MAX_QUOTES_PER_LEG) :
    (∃ err, engine.acceptRequest r expected now events = engine.refuse events err) ∨
      ∃ acc fills w', engine.acceptRequest r expected now events = engine.done w' ∧
        Checked engine r now events fills acc ∧
        Accepted max r now acc.record.auction acc.total (intentOf r acc) fills
          (engine.ledger, events) w' := by
  unfold Engine.acceptRequest
  split
  · exact .inl ⟨_, rfl⟩
  next acc hcheck =>
  obtain ⟨fills, hc⟩ := h.checkAccept hcheck
  obtain ⟨res, hres, htotal⟩ := hc.covered
  exact .inr ⟨acc, fills, _, rfl, hc, h.commitAccept hmax hc.record hc.opened hc.claim hres htotal
    hc.plan (fun j f hj => (hc.wins j f hj).fits) (hconfig ▸ hc.room)⟩

-- ============================================================================
-- Discharging
-- ============================================================================

/-- `l'` is `l` with every claim committed to `r` gone. -/
structure Discharges (l : Ledger) (max now : Nat) (r : ReqIdx) (l' : Ledger) : Prop where
  healthy : l'.Healthy max none
  sized : Sized l l'
  steps : Market.Steps now (.resolving r) l.market l'.market
  auctions : l'.market.auctions = l.market.auctions
  cleared : ∀ h k, l'.market.claims h = some k → k.status ≠ .committed r
  totals : ∀ account t, l.market.totals account = some t → ∃ t',
    l'.market.totals account = some t' ∧ t'.free = t.free ∧
      t.claimed = t'.claimed + l.market.pledged r account

theorem auctions_of_discharged {b b' : Book} {gone : List (ResIdx × Claim)}
    (h : Book.Discharged r b gone b') : b'.market.auctions = b.market.auctions := by
  induction h with
  | nil => rfl
  | cons hk hs _ _ rest ih =>
      rw [ih, Book.market_discharge]
      rfl

/-- A settling request's own claim is on its committed list. -/
theorem Healthy.own_committed (h : l.Healthy max none) (ha : l.market.auctions r = some a)
    (hsettling : a.IsSettling) :
    ∀ c, l.book.ownerClaim (.request r) = some (some c) →
      ∃ k, l.book.claims c = some k ∧ k.status = .committed r := by
  intro c howner
  obtain ⟨k, hk, hown⟩ := h.intact.balanced.holder _ _ howner
  refine ⟨k, hk, ?_⟩
  obtain ⟨a', ha', hb⟩ := h.coherent.auctioned c k r hk hown
  cases hs : k.status with
  | committed r' => rw [hb.committed r' hs]
  | reserved e =>
      obtain ⟨n, d, hset⟩ := hsettling
      rw [ha, Option.some.injEq] at ha'
      have := (hb.reserved e hs).1
      rw [← ha', hset] at this
      cases this

theorem Healthy.dischargeCommitted (now : Nat) (h : l.Healthy max none) (ha : l.market.auctions r = some a)
    (hsettling : a.IsSettling) :
    ∃ gone l', CommitPhase.dischargeCommitted l r =
        (gone.map fun (_, k) => (k.owner, k.amount), l') ∧ Book.Discharged r l.book gone l'.book ∧
      Discharges l max now r l' := by
  obtain ⟨gone, l', heq, hi', hd, hkept, hnone⟩ :=
    h.intact.dischargeCommitted (h.own_committed ha hsettling)
  have hsteps : Market.Steps now (.resolving r) l.market l'.market := hd.steps
  refine ⟨gone, l', heq, hd, ⟨hi', h.chained.discharged hd, h.coherent.steps_of hsteps rfl⟩,
    hkept.sized, hsteps, auctions_of_discharged hd, hnone, ?_⟩
  intro account t ht
  obtain ⟨t', ht', hfree, hreserved, hcommitted⟩ := hd.totals ht
  have hsum := hd.sum (Claim.committedOn r account)
  have hzero : l'.book.sum (Claim.committedOn r account) = 0 :=
    book_sum_eq_zero fun c k hk => Market.committedOn_eq_zero (hnone c k hk)
  have hpledged : l.market.pledged r account = l.book.sum (Claim.committedOn r account) := rfl
  refine ⟨t', ht', hfree, ?_⟩
  simp only [Totals.claimed]
  omega

-- ============================================================================
-- Closing consumed quotes
-- ============================================================================

theorem Healthy.closeQuote {x : Quote} (h : l.Healthy max none)
    (ha : l.market.auctions r = some a) (hclosed : a.state.isAnswered = true)
    (hq : l.quote q = some x)
    (hr : x.request = r) (hconsumed : x.state = .consumed) (hclaim : x.claim = none) :
    (CommitPhase.closeQuote l q).Healthy max none ∧ Sized l (CommitPhase.closeQuote l q) ∧
      (CommitPhase.closeQuote l q).market = l.market.setOffer q none ∧
      Market.Step now (.resolving r) l.market (CommitPhase.closeQuote l q).market ∧
      ∀ q', q' ≠ q → (CommitPhase.closeQuote l q).quote q' = l.quote q' := by
  have hassert : (l.quote q).any (fun (q : Quote) => q.claim.isNone) = true := by
    simp [hq, hclaim]
  obtain ⟨hi', hbook, hsized⟩ := h.intact.removeQuote fun v hv => by
    rw [hq, Option.some.injEq] at hv
    exact hv ▸ hclaim
  have hclose : CommitPhase.closeQuote l q = { l with quotes := (l.quotes.remove q).2 } := by
    rw [CommitPhase.closeQuote, debugAssert_of_true hassert]
  have hmarket : (CommitPhase.closeQuote l q).market = l.market.setOffer q none := by
    rw [hclose, Ledger.market, hbook, Book.market_setQuote]
    rfl
  have hstep : Market.Step now (.resolving r) l.market (CommitPhase.closeQuote l q).market := by
    rw [hmarket]
    exact .close (by rw [show x.offer.request = r from hr]) (market_offers hq) hconsumed
      (h.intact.backing_none (by simp [Ledger.ownerClaim, hq, hclaim]))
  refine ⟨⟨hclose ▸ hi', ?_, h.coherent.step_of hstep rfl⟩, hclose ▸ hsized, hmarket,
    hstep, ?_⟩
  · rw [hclose, hbook]
    refine h.chained.setQuote (fun _ _ => Iff.rfl) ?_ (by simp)
    intro x' y hx' _ hy
    have hx' : l.quote q = some x' := hx'
    rw [hq, Option.some.injEq] at hx'
    subst hx'
    obtain ⟨y', hy', hauction⟩ := request_of_market ha
    rw [hr, book_requests hy', Option.some.injEq] at hy
    subst hy
    rw [← hauction] at hclosed
    exact hclosed
  · intro q' hne
    rw [hclose]
    show (l.quotes.remove q).2.get q' = l.quotes.get q'
    rw [Slab.get_remove (by rw [show l.quotes.get q = some x from hq]; rfl), if_neg hne]

/-- A run of closes. -/
theorem Healthy.closeQuotes {qs : List QuoteIdx} (h : l.Healthy max none)
    (ha : l.market.auctions r = some a) (hclosed : a.state.isAnswered = true) (hnodup : qs.Nodup)
    (hqs : ∀ q ∈ qs, ∃ x, l.quote q = some x ∧ x.request = r ∧ x.state = .consumed ∧
      x.claim = none) :
    (qs.foldl CommitPhase.closeQuote l).Healthy max none ∧
      Sized l (qs.foldl CommitPhase.closeQuote l) ∧
      Market.Steps now (.resolving r) l.market (qs.foldl CommitPhase.closeQuote l).market ∧
      (qs.foldl CommitPhase.closeQuote l).market.auctions = l.market.auctions ∧
      (qs.foldl CommitPhase.closeQuote l).market.claims = l.market.claims ∧
      (qs.foldl CommitPhase.closeQuote l).market.totals = l.market.totals := by
  induction qs generalizing l with
  | nil => exact ⟨h, Sized.refl l, .refl _, rfl, rfl, rfl⟩
  | cons q qs ih =>
      obtain ⟨hnot, hnodup⟩ := List.nodup_cons.mp hnodup
      obtain ⟨x, hx, hr, hconsumed, hclaim⟩ := hqs q (by simp)
      obtain ⟨h₁, hsized₁, hmarket₁, hstep₁, hframe₁⟩ := h.closeQuote ha hclosed hx hr
        hconsumed hclaim
      obtain ⟨h', hsized', hsteps', hauctions', hclaims', htotals'⟩ := ih h₁
        (by rw [hmarket₁]; exact ha) hnodup fun q' hq' => by
          rw [hframe₁ q' fun heq => hnot (heq ▸ hq')]
          exact hqs q' (by simp [hq'])
      rw [List.foldl_cons]
      refine ⟨h', hsized₁.trans hsized', (Market.Steps.one hstep₁).trans hsteps', ?_, ?_, ?_⟩
      · rw [hauctions', hmarket₁]
        rfl
      · rw [hclaims', hmarket₁]
        rfl
      · rw [htotals', hmarket₁]
        rfl

/-- The consumed quotes of a request that has been answered. -/
theorem Healthy.closeConsumedQuotes (h : l.Healthy max none) (ha : l.market.auctions r = some a)
    (hclosed : a.state.isAnswered = true) :
    (Engine.closeConsumedQuotes l r).Healthy max none ∧
      Sized l (Engine.closeConsumedQuotes l r) ∧
      Market.Steps now (.resolving r) l.market (Engine.closeConsumedQuotes l r).market ∧
      (Engine.closeConsumedQuotes l r).market.auctions = l.market.auctions ∧
      (Engine.closeConsumedQuotes l r).market.claims = l.market.claims ∧
      (Engine.closeConsumedQuotes l r).market.totals = l.market.totals := by
  unfold Engine.closeConsumedQuotes
  refine h.closeQuotes ha hclosed ?_ ?_
  · have hsub : ((l.quotes.iter.filter fun x =>
        decide (x.2.request = r ∧ x.2.state = .consumed ∧ x.2.claim = none)).map Prod.fst).Sublist
          (l.quotes.iter.map Prod.fst) := List.filter_sublist.map _
    exact ((List.take_sublist _ _).trans hsub).nodup Slab.nodup_iter
  · intro q hq
    obtain ⟨v, hv, rfl⟩ := List.mem_map.mp (List.mem_of_mem_take hq)
    obtain ⟨hmem, hmatch⟩ := List.mem_filter.mp hv
    simp only [decide_eq_true_eq] at hmatch
    exact ⟨v.2, Slab.mem_iter.mp hmem, hmatch⟩

-- ============================================================================
-- PollSettlement
-- ============================================================================

/-- `w'` is `w` with the settlement of `r` resolved to `st`. -/
structure Resolves (w : Work) (max now : Nat) (r : ReqIdx) (a : Auction) (st : RequestState)
    (w' : Work) : Prop where
  carried : Carried max now (.resolving r) w w'
  resolved : w'.1.market.auctions r = some (a.withState st)
  totals : ∀ account t, w.1.market.totals account = some t → ∃ t',
    w'.1.market.totals account = some t' ∧ t'.free = t.free ∧
      t.claimed = t'.claimed + w.1.market.pledged r account

theorem Healthy.setResolved {st : RequestState} (h : l.Healthy max none)
    (ha : l.market.auctions r = some a) (hsettling : a.IsSettling)
    (hnone : ∀ h k, l.market.claims h = some k → k.status ≠ .committed r)
    (hst : st = .escrowed ∨ st = .settlementFailed) :
    (l.modifyRequest r fun r => r.setState st).Healthy max none ∧
      (l.modifyRequest r fun r => r.setState st).market = l.market.setAuction r (a.withState st) ∧
      Market.Step now (.resolving r) l.market (l.modifyRequest r fun r => r.setState st).market := by
  obtain ⟨y, hy, rfl⟩ := request_of_market ha
  have hmarket : (l.modifyRequest r fun r => r.setState st).market =
      l.market.setAuction r (y.auction.withState st) := by
    rw [Ledger.market, book_modifyRequest (f := fun r => r.setState st) fun _ => rfl,
      Book.market_modifyRequest (book_requests hy)]
    rfl
  have hstep : Market.Step now (.resolving r) l.market
      (l.modifyRequest r fun r => r.setState st).market := by
    rw [hmarket]
    exact .resolve rfl ha hsettling hnone hst
  refine ⟨⟨h.intact.modifyRequest (fun _ => rfl) (fun _ => rfl) fun _ => rfl, ?_,
    h.coherent.step_of hstep rfl⟩, hmarket, hstep⟩
  rw [book_modifyRequest (f := fun r => r.setState st) fun _ => rfl]
  exact h.chained.answer (by rcases hst with rfl | rfl <;> rfl)

/-- Closing quotes and moving a request on are independent. -/
theorem closeQuotes_modifyRequest {f : Request → Request} (qs : List QuoteIdx) :
    qs.foldl CommitPhase.closeQuote (l.modifyRequest r f) =
      (qs.foldl CommitPhase.closeQuote l).modifyRequest r f := by
  induction qs generalizing l with
  | nil => rfl
  | cons q qs ih =>
      rw [List.foldl_cons, List.foldl_cons, ← ih]
      rfl

theorem closeConsumedQuotes_modifyRequest {f : Request → Request} :
    Engine.closeConsumedQuotes (l.modifyRequest r f) r =
      (Engine.closeConsumedQuotes l r).modifyRequest r f :=
  closeQuotes_modifyRequest _

/-- An answer: the committed claims go, the request moves on, its consumed quotes are
    closed. -/
theorem Healthy.resolveRequest {st : RequestState} {b b' : EventBuffer} (now : Nat)
    (h : l.Healthy max none)
    (ha : l.market.auctions r = some a) (hsettling : a.IsSettling)
    (hst : st = .escrowed ∨ st = .settlementFailed) (hquiet : EventBuffer.Quiet b b') :
    Resolves (l, b) max now r a st
      (Engine.closeConsumedQuotes ((CommitPhase.dischargeCommitted l r).2.modifyRequest r
        fun r => r.setState st) r, b') := by
  obtain ⟨gone, l₁, heq, -, hd⟩ := h.dischargeCommitted now ha hsettling
  rw [heq]
  have ha₁ : l₁.market.auctions r = some a := hd.auctions ▸ ha
  obtain ⟨h₂, hmarket₂, hstep₂⟩ := hd.healthy.setResolved ha₁ hsettling hd.cleared hst
  have ha₂ : (l₁.modifyRequest r fun r => r.setState st).market.auctions r =
      some (a.withState st) := by
    rw [hmarket₂]
    exact Function.update_self ..
  obtain ⟨h₃, hsized₃, hsteps₃, hauctions₃, -, htotals₃⟩ :=
    h₂.closeConsumedQuotes ha₂ (by rcases hst with rfl | rfl <;> rfl)
  refine ⟨⟨h₃, ?_, ?_, hquiet⟩, ?_, ?_⟩
  · exact hd.sized.trans (kept_modifyRequest.sized.trans hsized₃)
  · exact (hd.steps.tail hstep₂).trans hsteps₃
  · rw [hauctions₃]
    exact ha₂
  · intro account t ht
    obtain ⟨t', ht', hrest⟩ := hd.totals account t ht
    refine ⟨t', ?_, hrest⟩
    rw [htotals₃, hmarket₂]
    exact ht'

theorem Healthy.settleRequest {nonce : Nonce} (h : engine.ledger.Healthy max none)
    (ha : engine.ledger.market.auctions r = some a) (hsettling : a.IsSettling) :
    Resolves (engine.ledger, events) max now r a .escrowed
      (engine.settleRequest r nonce events) :=
  h.resolveRequest now ha hsettling (.inl rfl) (EventBuffer.quiet_push rfl)

theorem Healthy.failRequest {nonce : Nonce} (h : engine.ledger.Healthy max none)
    (ha : engine.ledger.market.auctions r = some a) (hsettling : a.IsSettling) :
    Resolves (engine.ledger, events) max now r a .settlementFailed
      (engine.failRequest r nonce events) := by
  have hquiet : EventBuffer.Quiet events (engine.failRequest r nonce events).2 :=
    (EventBuffer.quiet_foldl (fun _ => rfl) _ _).trans (EventBuffer.quiet_push rfl)
  have hresolves := h.resolveRequest now ha hsettling (.inr rfl) hquiet
  rw [closeConsumedQuotes_modifyRequest] at hresolves
  exact hresolves

theorem resolveNonce_eq {nonce : Nonce} (h : Engine.resolveNonce l nonce = some r) :
    Nonce.of r = nonce := by
  unfold Engine.resolveNonce at h
  split at h
  · cases h
  next handle hhandle =>
  split at h
  next hgen =>
    rw [Option.some.injEq] at h
    subst h
    obtain ⟨hindex, -⟩ := Slab.handleAt_eq_some.mp hhandle
    cases nonce
    simp only [Nonce.of, hindex, hgen]
  next => cases h

theorem resolveNonce_eq_some {nonce : Nonce} :
    Engine.resolveNonce l nonce = some r ↔ Nonce.of r = nonce ∧ (l.request r).isSome := by
  constructor
  · intro hresolve
    refine ⟨resolveNonce_eq hresolve, ?_⟩
    unfold Engine.resolveNonce at hresolve
    split at hresolve
    · cases hresolve
    next handle hhandle =>
    split at hresolve
    · obtain rfl := Option.some.inj hresolve
      obtain ⟨-, hlive⟩ := Slab.handleAt_eq_some.mp hhandle
      exact hlive
    · cases hresolve
  · rintro ⟨rfl, hsome⟩
    obtain ⟨y, hy⟩ := Option.isSome_iff_exists.mp hsome
    have hhandle : l.requestHandleAt (Nonce.of r).request = some r := Slab.handleAt_of_get hy
    rw [Engine.resolveNonce, hhandle]
    exact if_pos rfl

/-- The state an answer moves a request to. -/
def answered : TxStatus → RequestState
  | .reverted => .settlementFailed
  | _ => .escrowed

/-- A report is refused, or is no answer and changes nothing but the buffer, or
    resolves the request it names. -/
theorem Healthy.pollSettlement {reported : Nonce} {status : TxStatus}
    (h : engine.ledger.Healthy max none) :
    (∃ err, engine.pollSettlement reported status now events = engine.refuse events err) ∨
    (∃ b, engine.pollSettlement reported status now events = (.ok (), engine, b) ∧
      EventBuffer.Quiet events b ∧ status.isTerminal = false) ∨
    ∃ r y d w', engine.ledger.request r = some y ∧ y.state = .settling reported d ∧
      Nonce.of r = reported ∧ Engine.resolveNonce engine.ledger reported = some r ∧
      status.isTerminal = true ∧
      engine.pollSettlement reported status now events = engine.done w' ∧
      Resolves (engine.ledger, events) max now r y.auction (answered status) w' := by
  unfold Engine.pollSettlement
  split
  · exact .inl ⟨_, rfl⟩
  next r hresolve =>
  split
  · exact .inl ⟨_, rfl⟩
  next y hy =>
  split
  next nonce d hstate =>
    split
    · exact .inl ⟨_, rfl⟩
    next heq =>
    obtain rfl : nonce = reported := by simpa using heq
    have hsettling : y.auction.IsSettling := ⟨nonce, d, hstate⟩
    have hnonce := resolveNonce_eq hresolve
    split
    all_goals try
      split
      · exact .inr (.inl ⟨events, rfl, .refl _, rfl⟩)
      split
      · exact .inl ⟨_, rfl⟩
      exact .inr (.inl ⟨_, rfl, EventBuffer.quiet_push rfl, rfl⟩)
    · split
      · exact .inl ⟨_, rfl⟩
      exact .inr (.inr ⟨r, y, d, _, hy, hstate, hnonce, hresolve, rfl, rfl,
        h.settleRequest (market_auctions hy) hsettling⟩)
    · split
      · exact .inl ⟨_, rfl⟩
      exact .inr (.inr ⟨r, y, d, _, hy, hstate, hnonce, hresolve, rfl, rfl,
        h.failRequest (market_auctions hy) hsettling⟩)
  next => exact .inl ⟨_, rfl⟩

end Ledger

end RfqSettlement
