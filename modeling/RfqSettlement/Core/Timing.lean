/-
  RfqSettlement.Core.Timing

  How long requests and quotes may last.

  `Arrives` says what of a market is new after a command: a request within the
  request TTL, far enough from its contracts' events, or a quote within the quote
  TTL, made before its request's deadline.  `Engine.Timely` is what follows for
  every engine reached at instants that never go back.
-/

import RfqSettlement.Core.ClaimMoves
import RfqSettlement.Core.Resolution

namespace RfqSettlement

namespace Market

variable {m m' : Market} {scope : Scope} {now : Nat} {q : QuoteIdx} {o : Offer}

/-- `o` is `o₀`, or `o₀` consumed. -/
def SameTerms (o₀ o : Offer) : Prop := o = o₀ ∨ o = o₀.consume

theorem Step.offer_of_closed (hstep : Step now scope m m') (hopens : ¬ scope.Opens)
    (ho : m'.offers q = some o) : ∃ o₀, m.offers q = some o₀ ∧ SameTerms o₀ o := by
  have hsame : ∀ {o}, m.offers q = some o → ∃ o₀, m.offers q = some o₀ ∧ SameTerms o₀ o :=
    fun ho => ⟨_, ho, .inl rfl⟩
  have hset : ∀ {m' : Market} {q' : QuoteIdx} {new : Option Offer}, m'.offers = m.offers →
      (∀ o, new = some o → ∃ o₀, m.offers q' = some o₀ ∧ o = o₀.consume) →
        (m'.setOffer q' new).offers q = some o → ∃ o₀, m.offers q = some o₀ ∧ SameTerms o₀ o := by
    intro m' q' new hm' hnew ho
    simp only [setOffer, Function.update_apply] at ho
    split at ho
    next heq =>
      obtain ⟨o₀, ho₀, rfl⟩ := hnew o ho
      exact ⟨o₀, heq ▸ ho₀, .inr rfl⟩
    next => exact hsame (hm' ▸ ho)
  cases hstep with
  | openAuction hscope => exact absurd hscope hopens
  | openOffer hscope => exact absurd hscope hopens
  | withdraw => exact hset offers_letGo (by simp) ho
  | consume hscope ho' =>
      refine hset offers_pledge (fun o heq => ?_) ho
      obtain rfl := Option.some.inj heq
      exact ⟨_, ho', rfl⟩
  | close => exact hset rfl (by simp) ho
  | reject => exact hsame ((congrFun offers_letGo q).symm.trans ho)
  | _ => exact hsame ho

/-- Where nothing opens, an offer was there before. -/
theorem Steps.offer_of_closed (hsteps : Steps now scope m m') (hopens : ¬ scope.Opens)
    (ho : m'.offers q = some o) : ∃ o₀, m.offers q = some o₀ ∧ SameTerms o₀ o := by
  induction hsteps generalizing o with
  | refl => exact ⟨o, ho, .inl rfl⟩
  | tail _ hstep ih =>
      obtain ⟨o₁, ho₁, hterms⟩ := hstep.offer_of_closed hopens ho
      obtain ⟨o₀, ho₀, hterms₀⟩ := ih ho₁
      refine ⟨o₀, ho₀, ?_⟩
      rcases hterms with rfl | rfl
      · exact hterms₀
      · rcases hterms₀ with rfl | rfl
        · exact .inr rfl
        · exact .inr rfl

-- ============================================================================
-- What an account opened
-- ============================================================================

/-- All `account` has on offer, on auction or reserved in `m'` it had in `m`. -/
structure NothingNew (account : Nat) (m m' : Market) : Prop where
  offers : ∀ q o, m'.offers q = some o → o.maker = account →
    ∃ o₀, m.offers q = some o₀ ∧ SameTerms o₀ o
  auctions : ∀ r a, m'.auctions r = some a → a.requester = account → a.state = .opened →
    m.auctions r = some a
  claims : ∀ c k e, m'.claims c = some k → k.account = account → k.status = .reserved e →
    m.claims c = some k

theorem NothingNew.refl (account : Nat) (m : Market) : NothingNew account m m :=
  ⟨fun _ o ho _ => ⟨o, ho, .inl rfl⟩, fun _ _ ha _ _ => ha, fun _ _ _ hk _ _ => hk⟩

theorem SameTerms.maker {o₀ o : Offer} (h : SameTerms o₀ o) : o.maker = o₀.maker := by
  rcases h with rfl | rfl <;> rfl

theorem SameTerms.expiresAt {o₀ o : Offer} (h : SameTerms o₀ o) : o.expiresAt = o₀.expiresAt := by
  rcases h with rfl | rfl <;> rfl

theorem SameTerms.trans {o₀ o₁ o : Offer} (h : SameTerms o₀ o₁) (h' : SameTerms o₁ o) :
    SameTerms o₀ o := by
  rcases h' with rfl | rfl
  · exact h
  · rcases h with rfl | rfl
    · exact .inr rfl
    · exact .inr rfl

theorem NothingNew.trans {account : Nat} {m'' : Market} (h : NothingNew account m m')
    (h' : NothingNew account m' m'') : NothingNew account m m'' where
  offers q o ho hmaker := by
    obtain ⟨o₁, ho₁, hterms₁⟩ := h'.offers q o ho hmaker
    obtain ⟨o₀, ho₀, hterms₀⟩ := h.offers q o₁ ho₁ (hterms₁.maker.symm.trans hmaker)
    exact ⟨o₀, ho₀, hterms₀.trans hterms₁⟩
  auctions r a ha hrequester hopened :=
    h.auctions r a (h'.auctions r a ha hrequester hopened) hrequester hopened
  claims c k e hk haccount hs := h.claims c k e (h'.claims c k e hk haccount hs) haccount hs

/-- The claims of `account` are within its mirror. -/
def Within (m : Market) (account : Nat) : Prop :=
  ∀ t, m.totals account = some t → t.claimed ≤ t.free

theorem Step.auction_of_opened {r : ReqIdx} {a : Auction} (hstep : Step now scope m m')
    (ha : m'.auctions r = some a) (hopened : a.state = .opened) :
    m.auctions r = some a ∨ scope.Opens ∧ m'.Within a.requester := by
  cases hbefore : m.auctions r with
  | some a₀ =>
      obtain ⟨st, hst, hmoves⟩ := hstep.auction hbefore
      obtain rfl := Option.some.inj (ha.symm.trans hst)
      have hst : st = .opened := hopened
      rcases hmoves with heq | hmoves
      · rw [heq]
        exact .inl rfl
      · rw [hst] at hmoves
        generalize a₀.state = before at hmoves
        cases hmoves with
        | resolve _ hresolved => rcases hresolved with heq | heq <;> cases heq
  | none =>
      have hopens := (hstep.auction_new hbefore ha).2
      refine .inr ⟨hopens, ?_⟩
      cases hstep with
      | @openAuction r' _ a' _ hscope hr hh hstate hfair ht hadm =>
          simp only [reserve, putClaim, modifyTotals, setAuction, Function.update_apply] at ha
          split at ha
          next =>
            obtain rfl := Option.some.inj ha
            exact fun t' ht' => covered_of_reserve (m := m.setAuction r' a')
              (k := ⟨a'.requester, a'.total, .request r', .reserved a'.deadline⟩) hadm ht ht'
          next => cases hbefore.symm.trans ha
      | mirror | expire | openOffer | close => cases hbefore.symm.trans ha
      | withdraw => cases ((congrFun auctions_letGo r).trans hbefore).symm.trans ha
      | consume hscope => rw [hscope] at hopens; cases hopens
      | settle hscope => rw [hscope] at hopens; cases hopens
      | reject hscope => rw [hscope] at hopens; cases hopens
      | discharge hscope => rw [hscope] at hopens; cases hopens
      | resolve hscope => rw [hscope] at hopens; cases hopens

theorem Step.offer_of (hstep : Step now scope m m') (ho : m'.offers q = some o) :
    (∃ o₀, m.offers q = some o₀ ∧ SameTerms o₀ o) ∨ scope.Opens ∧ m'.Within o.maker := by
  by_cases hopens : scope.Opens
  · cases hstep with
    | @openOffer q' _ o' _ _ _ hscope hq hh hstate ha hopened hleg hsize hprice ht hadm =>
        simp only [reserve, putClaim, modifyTotals, setOffer, Function.update_apply] at ho
        split at ho
        next =>
          obtain rfl := Option.some.inj ho
          exact .inr ⟨hscope, fun t' ht' => covered_of_reserve (m := m.setOffer q' (some o'))
            (k := ⟨o'.maker, _, .quote q', .reserved o'.expiresAt⟩) hadm ht ht'⟩
        next => exact .inl ⟨o, ho, .inl rfl⟩
    | mirror | expire | openAuction => exact .inl ⟨o, ho, .inl rfl⟩
    | withdraw =>
        simp only [setOffer, Function.update_apply, offers_letGo] at ho
        split at ho
        · cases ho
        · exact .inl ⟨o, ho, .inl rfl⟩
    | consume hscope => rw [hscope] at hopens; cases hopens
    | settle hscope => rw [hscope] at hopens; cases hopens
    | reject hscope => rw [hscope] at hopens; cases hopens
    | discharge hscope => rw [hscope] at hopens; cases hopens
    | resolve hscope => rw [hscope] at hopens; cases hopens
    | close hscope => rw [hscope] at hopens; cases hopens
  · exact .inl (hstep.offer_of_closed hopens ho)

theorem Step.nothingNew (hstep : Step now scope m m') (account : Nat) :
    NothingNew account m m' ∨ scope.Opens ∧ m'.Within account := by
  by_cases hwithin : scope.Opens ∧ m'.Within account
  · exact .inr hwithin
  · refine .inl ⟨fun q o ho hmaker => ?_, fun r a ha hrequester hopened => ?_,
      fun c k e hk haccount hs => ?_⟩
    · rcases hstep.offer_of ho with hold | hnew
      · exact hold
      · exact absurd (hmaker ▸ hnew) hwithin
    · rcases hstep.auction_of_opened ha hopened with hold | hnew
      · exact hold
      · exact absurd (hrequester ▸ hnew) hwithin
    · rcases hstep.claim hk with ⟨k₀, hk₀, hbecomes⟩ | henters
      · rcases hbecomes.status with rfl | ⟨r, -, -, -, hcommitted⟩
        · exact hk₀
        · rw [hs] at hcommitted
          cases hcommitted
      · exact absurd ⟨henters.opens, haccount ▸ henters.covered⟩ hwithin

/-- Within one command an account opens nothing, or ends with its claims within its mirror. -/
theorem Steps.nothingNew (hsteps : Steps now scope m m') (account : Nat) :
    NothingNew account m m' ∨ scope.Opens ∧ m'.Within account := by
  induction hsteps with
  | refl => exact .inl (.refl account _)
  | tail _ hstep ih =>
      rcases ih with hold | ⟨hopens, hwithin⟩
      · exact (hstep.nothingNew account).imp_left hold.trans
      · refine .inr ⟨hopens, fun t ht => ?_⟩
        obtain ⟨t₁, ht₁⟩ := Option.isSome_iff_exists.mp
          (hstep.totals_isSome.symm.trans (by rw [ht]; rfl))
        obtain ⟨t', ht', hmove⟩ := hstep.totals ht₁
        obtain rfl := Option.some.inj (ht.symm.trans ht')
        exact hmove.covered hopens (hwithin t₁ ht₁)

end Market

namespace Engine

open Ledger (QuoteChecked OneAuction)

variable {e n : Engine} {config : Config} {command : Command} {now : Nat} {events : EventBuffer}
  {input : Input} {scope : Scope} {m' : Market}

-- ============================================================================
-- One command
-- ============================================================================

/-- A request made at `now`, in time. -/
structure FreshAuction (e : Engine) (now : Nat) (a : Auction) : Prop where
  future : now < a.deadline
  ttl : a.deadline ≤ now + e.config.maxRequestTtl
  horizon : ∀ s ∈ a.legs, ∃ c, e.ledger.contract s.contract = some c ∧
    now + e.config.minHorizon < c.eventDate

/-- A quote made at `now`, in time. -/
structure FreshOffer (e : Engine) (now : Nat) (o : Offer) : Prop where
  ttl : o.expiresAt ≤ now + e.config.maxQuoteTtl
  opened : ∃ a, e.market.auctions o.request = some a ∧ now < a.deadline

/-- Everything of `m'` was in the engine before or came in time. -/
structure Arrives (e : Engine) (now : Nat) (m' : Market) : Prop where
  auctions : ∀ r a, m'.auctions r = some a →
    (∃ a₀, e.market.auctions r = some a₀ ∧ a = a₀.withState a.state) ∨
      e.market.auctions r = none ∧ FreshAuction e now a
  offers : ∀ q o, m'.offers q = some o →
    (∃ o₀, e.market.offers q = some o₀ ∧ Market.SameTerms o₀ o) ∨ FreshOffer e now o

theorem arrives_of_closed (hsteps : Market.Steps now scope e.market m') (hopens : ¬ scope.Opens) :
    Arrives e now m' := by
  refine ⟨fun r a ha => ?_, fun q o ho => .inl (hsteps.offer_of_closed hopens ho)⟩
  cases hbefore : e.market.auctions r with
  | none => exact absurd (hsteps.auction_new hbefore ha).2 hopens
  | some a₀ =>
      obtain ⟨st, hst, -⟩ := hsteps.auction hbefore
      obtain rfl := Option.some.inj (ha.symm.trans hst)
      exact .inl ⟨a₀, rfl, rfl⟩

theorem arrives_of_market (h : m' = e.market) : Arrives e now m' := by
  subst h
  have hsteps : Market.Steps now (.resolving ⟨0, 0⟩) e.market e.market := .refl _
  exact arrives_of_closed hsteps (by simp [Scope.Opens])

theorem Sane.arrives_submitRequest {requester deadline : Nat} {specs : List LegSpec} (h : e.Sane) :
    Arrives e now (e.submitRequest requester deadline specs now events).2.1.market := by
  rcases h.healthy.submitRequest h.config.legs with ⟨err, heq⟩ | ⟨w', heq, hcarried, hone⟩
  · rw [heq]
    exact arrives_of_market rfl
  · rw [heq]
    refine ⟨fun r a ha => ?_, fun q o ho => .inl ⟨o, ?_, .inl rfl⟩⟩
    · cases hbefore : e.market.auctions r with
      | none =>
          rcases hone.auctions r a ha with hold | rfl
          · exact absurd (hbefore.symm.trans hold) (by simp)
          · exact .inr ⟨rfl, hone.future, hone.ttl, hone.horizon⟩
      | some a₀ =>
          obtain ⟨st, hst, -⟩ := hcarried.steps.auction hbefore
          obtain rfl := Option.some.inj (Eq.trans (Eq.symm ha) hst)
          exact .inl ⟨a₀, rfl, rfl⟩
    · rw [← show w'.1.market.offers = e.market.offers from hone.offers]
      exact ho

theorem Sane.arrives_submitQuote {maker i price size expiresAt : Nat} {r : ReqIdx} (h : e.Sane) :
    Arrives e now (e.submitQuote maker r i price size expiresAt now events).2.1.market := by
  rcases h.healthy.submitQuote (r := r) (i := i) rfl h.config.quotesPerLeg with
    ⟨err, heq⟩ | ⟨standing, contribution, y, leg, w₁, hc, hw, hout⟩
  · rw [heq]
    exact arrives_of_market rfl
  -- withdrawing the standing quote brings nothing
  have hbefore : ∀ q o, w₁.1.market.offers q = some o →
      ∃ o₀, e.market.offers q = some o₀ ∧ Market.SameTerms o₀ o := by
    intro q o ho
    cases hstanding : standing with
    | none =>
        obtain rfl := hw.untouched hstanding
        exact ⟨o, ho, .inl rfl⟩
    | some q' =>
        obtain ⟨x, held, -, hretires, -⟩ := hw.retired q' hstanding
        rw [hretires.market] at ho
        simp only [Market.setOffer, Function.update_apply, Market.offers_letGo] at ho
        split at ho
        · cases ho
        · exact ⟨o, ho, .inl rfl⟩
  have hauctions : ∀ {m' : Market}, m'.auctions = w₁.1.market.auctions → ∀ r a,
      m'.auctions r = some a → (∃ a₀, e.market.auctions r = some a₀ ∧ a = a₀.withState a.state) ∨
        e.market.auctions r = none ∧ FreshAuction e now a := by
    intro m' hm' r a ha
    rw [hm', hw.auctions] at ha
    exact .inl ⟨a, ha, rfl⟩
  rcases hout with ⟨-, err, arrival, heq⟩ | ⟨-, w', arrival, heq, -, -, hnew, hsame⟩
  · rw [heq]
    exact ⟨hauctions rfl, fun q o ho => .inl (hbefore q o ho)⟩
  · rw [heq]
    refine ⟨hauctions hsame, fun q o ho => ?_⟩
    rcases hnew q o ho with hold | rfl
    · exact .inl (hbefore q o hold)
    · refine .inr ⟨?_, y.auction, Ledger.market_auctions hc.request, hc.deadline⟩
      have := hc.ttl
      have := hc.expiry
      show expiresAt ≤ now + e.config.maxQuoteTtl
      omega

theorem market_registerContract (l : Ledger) (contract eventDate : Nat) :
    (l.registerContract contract eventDate).2.market = l.market := by
  unfold Ledger.registerContract
  split
  · rfl
  · split <;> rfl
  · rfl

/-- Every command, on a normalised engine. -/
theorem Sane.arrives_perform (h : e.Sane) :
    Arrives e now (e.perform command now events).2.1.market := by
  have hmax := h.config.quotesPerLeg
  cases command with
  | creditAccount account free =>
      have hperforms := h.performs (.creditAccount account free) now events
      generalize e.perform (.creditAccount account free) now events = answer at hperforms
      cases hperforms with
      | refused => exact arrives_of_market rfl
      | traded hfor _ hcarried =>
          obtain rfl := hfor
          exact arrives_of_closed hcarried.steps (by simp [Scope.Opens])
  | registerContract contract eventDate =>
      refine arrives_of_market ?_
      have hsame := market_registerContract e.ledger contract eventDate
      rw [Engine.perform]
      split
      next heq => rw [heq] at hsame; exact hsame
      next heq => rw [heq] at hsame; exact hsame
  | submitRequest requester deadline specs => exact h.arrives_submitRequest
  | rejectRequest r =>
      rw [Engine.perform]
      rcases h.healthy.rejectRequest (r := r) hmax with ⟨err, heq⟩ | ⟨w', heq, hcarried, -⟩
      · rw [heq]
        exact arrives_of_market rfl
      · rw [heq]
        exact arrives_of_closed hcarried.steps (by simp [Scope.Opens])
  | submitQuote maker r leg price size expiresAt => exact h.arrives_submitQuote
  | cancelQuote q =>
      rw [Engine.perform]
      split <;> exact arrives_of_market rfl
  | acceptRequest r expected =>
      rw [Engine.perform]
      rcases h.healthy.acceptRequest (r := r) rfl hmax with
        ⟨err, heq⟩ | ⟨acc, fills, w', heq, -, haccepted⟩
      · rw [heq]
        exact arrives_of_market rfl
      · rw [heq]
        exact arrives_of_closed haccepted.steps (by simp [Scope.Opens])
  | pollSettlement nonce status =>
      rw [Engine.perform]
      rcases h.healthy.pollSettlement with
        ⟨err, heq⟩ | ⟨b, heq, -⟩ | ⟨r, y, d, w', -, -, -, -, -, heq, hresolves⟩
      · rw [heq]
        exact arrives_of_market rfl
      · rw [heq]
        exact arrives_of_market rfl
      · rw [heq]
        exact arrives_of_closed hresolves.carried.steps (by simp [Scope.Opens])
  | reportOracleStatus contract status =>
      rw [Engine.perform]
      unfold reportOracleStatus
      split
      · exact arrives_of_market rfl
      split
      · exact arrives_of_market rfl
      split <;> exact arrives_of_market rfl
  | settleEscrow escrow contract =>
      rw [Engine.perform]
      unfold settleEscrow
      split
      · exact arrives_of_market rfl
      split
      · exact arrives_of_market rfl
      split <;> exact arrives_of_market rfl

/-- Every input. -/
theorem Sane.arrives (h : e.Sane) (input : Input) : Arrives e input.now (e.step input).market := by
  have hn := h.normalised input.command input.now
  have harrives : Arrives _ input.now (Engine.perform _ input.command input.now
      (.withCapacity input.capacity)).2.1.market := hn.sane.arrives_perform
  refine ⟨fun r a ha => ?_, fun q o ho => ?_⟩
  · rcases harrives.auctions r a ha with hold | ⟨hnone, hfresh⟩
    · exact .inl (hn.auctions ▸ hold)
    · refine .inr ⟨hn.auctions ▸ hnone, hfresh.future, ?_, ?_⟩
      · have := hfresh.ttl
        rwa [hn.config] at this
      · have := hfresh.horizon
        simpa only [hn.config, Ledger.contract, hn.contracts] using this
  · rcases harrives.offers q o ho with hold | hfresh
    · exact .inl (hn.offers ▸ hold)
    · have httl := hfresh.ttl
      rw [hn.config] at httl
      exact .inr ⟨httl, hn.auctions ▸ hfresh.opened⟩

-- ============================================================================
-- Runs
-- ============================================================================

/-- How long everything stored may still last at `now`. -/
structure Timely (now : Nat) (e : Engine) : Prop where
  deadline : ∀ r a, e.market.auctions r = some a → a.deadline ≤ now + e.config.maxRequestTtl
  expiry : ∀ q o, e.market.offers q = some o → o.expiresAt ≤ now + e.config.maxQuoteTtl
  within : ∀ q o, e.market.offers q = some o → ∃ a, e.market.auctions o.request = some a ∧
    o.expiresAt < a.deadline + e.config.maxQuoteTtl
  horizon : ∀ r a, e.market.auctions r = some a → ∀ s ∈ a.legs, ∃ c,
    e.ledger.contract s.contract = some c ∧
      a.deadline + e.config.minHorizon < c.eventDate + e.config.maxRequestTtl

theorem Sane.config_step (h : e.Sane) (input : Input) : (e.step input).config = e.config := by
  obtain ⟨scope, -, hadv⟩ := h.apply input.command input.now (.withCapacity input.capacity)
  exact hadv.config

theorem Reachable.config_eq (h : Reachable config e) : e.config = config := by
  induction h with
  | new hnew =>
      obtain ⟨-, rfl⟩ := new_eq_ok hnew
      rfl
  | step h input ih => exact ((sane_of_reachable h).config_step input).trans ih

theorem ReachableAt.config_eq (h : ReachableAt config now e) : e.config = config :=
  h.reachable.config_eq

theorem eventDate_setOracleStatus (c : Contract) (status : OracleStatus) :
    (c.setOracleStatus status).eventDate = c.eventDate := by
  cases status <;> rfl

/-- A registered contract keeps its date. -/
theorem Sane.contract_step {contract : Nat} {c : Contract} (h : e.Sane) (input : Input)
    (hc : e.ledger.contract contract = some c) :
    ∃ c', (e.step input).ledger.contract contract = some c' ∧ c'.eventDate = c.eventDate := by
  have hreports := h.reports_step input contract
  rw [hc] at hreports
  generalize (e.step input).ledger.contract contract = after at hreports
  cases hreports with
  | same => exact ⟨c, rfl, rfl⟩
  | report hmay => exact ⟨_, rfl, eventDate_setOracleStatus c _⟩

theorem Timely.step (h : e.Timely now) (hsane : e.Sane) (input : Input) (hnow : now ≤ input.now) :
    (e.step input).Timely input.now := by
  have harrives := hsane.arrives input
  have hconfig := hsane.config_step input
  refine ⟨fun r a ha => ?_, fun q o ho => ?_, fun q o ho => ?_, fun r a ha s hs => ?_⟩
  · rw [hconfig]
    rcases harrives.auctions r a ha with ⟨a₀, ha₀, heq⟩ | ⟨-, hfresh⟩
    · have := h.deadline r a₀ ha₀
      have hsame : a.deadline = a₀.deadline := by rw [heq]; rfl
      omega
    · exact hfresh.ttl
  · rw [hconfig]
    rcases harrives.offers q o ho with ⟨o₀, ho₀, hterms⟩ | hfresh
    · have := h.expiry q o₀ ho₀
      rcases hterms with rfl | rfl
      · omega
      · show o₀.expiresAt ≤ _
        omega
    · exact hfresh.ttl
  · rw [hconfig]
    have hafter : ∀ a₀, e.market.auctions o.request = some a₀ →
        o.expiresAt < a₀.deadline + e.config.maxQuoteTtl →
          ∃ a, (e.step input).market.auctions o.request = some a ∧
            o.expiresAt < a.deadline + e.config.maxQuoteTtl := by
      intro a₀ ha₀ hlt
      obtain ⟨scope, -, hadv⟩ := hsane.apply input.command input.now (.withCapacity input.capacity)
      obtain ⟨st, hst, -⟩ := hadv.steps.auction ha₀
      exact ⟨_, hst, hlt⟩
    rcases harrives.offers q o ho with ⟨o₀, ho₀, hterms⟩ | hfresh
    · obtain ⟨a₀, ha₀, hlt⟩ := h.within q o₀ ho₀
      rcases hterms with rfl | rfl
      · exact hafter a₀ ha₀ hlt
      · exact hafter a₀ ha₀ hlt
    · obtain ⟨a₀, ha₀, hlt⟩ := hfresh.opened
      have := hfresh.ttl
      exact hafter a₀ ha₀ (by omega)
  · rw [hconfig]
    have hkept : ∀ {contract : Nat} {c : Contract} {bound : Nat},
        e.ledger.contract contract = some c → bound < c.eventDate + e.config.maxRequestTtl →
          ∃ c', (e.step input).ledger.contract contract = some c' ∧
            bound < c'.eventDate + e.config.maxRequestTtl := by
      intro contract c bound hc hlt
      obtain ⟨c', hc', hdate⟩ := hsane.contract_step input hc
      exact ⟨c', hc', hdate ▸ hlt⟩
    rcases harrives.auctions r a ha with ⟨a₀, ha₀, heq⟩ | ⟨-, hfresh⟩
    · have hlegs : a.legs = a₀.legs := by rw [heq]; rfl
      have hsame : a.deadline = a₀.deadline := by rw [heq]; rfl
      obtain ⟨c, hc, hlt⟩ := h.horizon r a₀ ha₀ s (hlegs ▸ hs)
      rw [hsame]
      exact hkept hc hlt
    · obtain ⟨c, hc, hlt⟩ := hfresh.horizon s hs
      have := hfresh.ttl
      exact hkept hc (by omega)

/-- Every engine reached at instants that never go back is timely. -/
theorem ReachableAt.timely (h : ReachableAt config now e) : e.Timely now := by
  induction h with
  | new now h =>
      obtain ⟨-, rfl⟩ := new_eq_ok h
      obtain ⟨-, hauctions, hoffers⟩ := market_new config
      refine ⟨?_, ?_, ?_, ?_⟩ <;> simp [Engine.market, hauctions, hoffers]
  | step h input hnow ih => exact ih.step h.sane input hnow

end Engine

end RfqSettlement
