/-
  RfqSettlement.Runtime.Effects

  What one command can do to the engine, as the systems around it see it.

  `Effect` sorts the outcomes of a command: time passes and no more; trading goes
  on; an account's mirror is written; an accept hands one bundle over; a settlement
  is resolved.  The invariants over engine and custody are proved case by case on
  it, and never look at a handler.
-/

import RfqSettlement.Core.Timing
import RfqSettlement.Runtime.Harness

namespace RfqSettlement

namespace Engine

open Ledger (Checked Accepted Resolves answered)

variable {e e' n : Engine} {config : Config} {command : Command} {now capacity : Nat}
  {input : Input} {bundles : List Bundle} {r : ReqIdx}

/-- A winner of the accept of `r`: its offer, and the claim that backs it. -/
structure Winner (m : Market) (r : ReqIdx) (leg : BundleLeg) : Prop where
  offer : ∃ q o, m.offers q = some o ∧ o.request = r ∧ o.maker = leg.maker ∧
    o.expiresAt = leg.quoteExpiry
  claim : ∃ c k q, m.claims c = some k ∧ k.account = leg.maker ∧ k.owner = .quote q ∧
    k.status = .reserved leg.quoteExpiry

/-- The accept of `r` at `now`, and the bundle it hands over. -/
structure Accepts (now : Nat) (r : ReqIdx) (bundle : Bundle) (a : Auction) (e e' : Engine) : Prop where
  auction : e.market.auctions r = some a
  opened : a.state = .opened
  deadline : now < a.deadline
  settling : ∃ deadline, e'.market.auctions r = some (a.withState (.settling (Nonce.of r) deadline))
  contracts : bundle.legs.map BundleLeg.contract = a.legs.map LegSpec.contract
  requester : bundle.requester = a.requester
  winners : ∀ leg ∈ bundle.legs, Winner e.market r leg
  live : ∀ leg ∈ bundle.legs, now < leg.quoteExpiry
  collateral : ∃ n, Normalised now e n ∧ Collateralises r bundle n.market e'.market
  steps : Market.Steps now (.filling r) e.market e'.market

/-- The settlement of `r` resolved by `status`. -/
structure Answers (now : Nat) (r : ReqIdx) (status : TxStatus) (a : Auction) (e e' : Engine) : Prop where
  auction : e.market.auctions r = some a
  settling : ∃ deadline, a.state = .settling (Nonce.of r) deadline
  resolved : e'.market.auctions r = some (a.withState (answered status))
  totals : ∀ account t, e.market.totals account = some t → ∃ t', e'.market.totals account = some t' ∧
    t'.free = t.free ∧ t'.claimed + e.market.pledged r account ≤ t.claimed
  steps : Market.Steps now (.resolving r) e.market e'.market

/-- What a command does to the engine, and the bundles it hands over. -/
inductive Effect (now : Nat) (e e' : Engine) (bundles : List Bundle) : Command → Prop where
  | still {command : Command} (hsteps : ∀ scope, Market.Steps now scope e.market e'.market)
      (hauctions : e'.market.auctions = e.market.auctions) (hbundles : bundles = [])
      (hanswer : ∀ nonce status r a deadline, command = .pollSettlement nonce status →
        status.isTerminal = true → e.market.auctions r = some a → a.state ≠ .settling nonce deadline)
      (hmirror : ∀ account free, command = .creditAccount account free →
        e.market.totals account = none) : Effect now e e' bundles command
  | traded {command : Command} {scope : Scope} (hgateway : command.isGateway = true)
      (hcalm : scope.Calm) (hmirror : ∀ account free, scope ≠ .crediting account free)
      (hsteps : Market.Steps now scope e.market e'.market) (hbundles : bundles = []) :
      Effect now e e' bundles command
  | credited {account free : Nat}
      (hsteps : Market.Steps now (.crediting account free) e.market e'.market)
      (hmirror : ∀ t, e'.market.totals account = some t → t.free = free)
      (hlive : ∀ c k x, e'.market.claims c = some k → k.account = account →
        k.status = .reserved x → now < x) (hbundles : bundles = []) :
      Effect now e e' bundles (.creditAccount account free)
  | accepted {r : ReqIdx} {expected : List ExpectedFill} {bundle : Bundle} {a : Auction}
      (haccepts : Accepts now r bundle a e e') (hbundles : bundles = [bundle]) :
      Effect now e e' bundles (.acceptRequest r expected)
  | resolved {r : ReqIdx} {status : TxStatus} {a : Auction} (hterminal : status.isTerminal = true)
      (hanswers : Answers now r status a e e') (hbundles : bundles = []) :
      Effect now e e' bundles (.pollSettlement (Nonce.of r) status)

-- ============================================================================
-- On a normalised engine
-- ============================================================================

theorem bundles_of_quiet {b : EventBuffer} (h : EventBuffer.Quiet (.withCapacity capacity) b) :
    b.events.filterMap bundleFrom = [] := by
  obtain ⟨new, hevents, hquiet⟩ := h
  rw [hevents]
  refine List.filterMap_eq_nil_iff.mpr fun event hevent => ?_
  exact bundleFrom_of_not_order (hquiet event (by simpa [EventBuffer.withCapacity] using hevent))

/-- A command that leaves the market alone. -/
theorem effect_same (hmarket : e'.market = e.market) (hbundles : bundles = [])
    (hanswer : ∀ nonce status r a deadline, command = .pollSettlement nonce status →
      status.isTerminal = true → e.market.auctions r = some a → a.state ≠ .settling nonce deadline)
    (hmirror : ∀ account free, command = .creditAccount account free →
      e.market.totals account = none) : Effect now e e' bundles command :=
  .still (fun _ => hmarket ▸ .refl _) (congrArg Market.auctions hmarket) hbundles hanswer hmirror

/-- A nonce names the request it was made for, as long as that is stored. -/
theorem resolveNonce_of_request {l : Ledger} {y : Request} (hy : l.request r = some y) :
    resolveNonce l (Nonce.of r) = some r := by
  have hhandle : l.requestHandleAt r.index = some r := Slab.handleAt_of_get hy
  simp [resolveNonce, Nonce.of, hhandle]

/-- An answer to a settlement resolves it, given room for its notices. -/
theorem Sane.poll_resolves {a : Auction} {nonce : Nonce} {deadline : Nat} {status : TxStatus}
    {events : EventBuffer} (h : e.Sane) (ha : e.market.auctions r = some a)
    (hsettling : a.state = .settling nonce deadline) (hterminal : status.isTerminal = true)
    (hroom : events.headroom (MAX_LEGS + 1) = true) :
    ∃ w', e.pollSettlement nonce status now events = e.done w' := by
  obtain ⟨y, hy, rfl⟩ := Ledger.request_of_market ha
  obtain rfl := h.healthy.coherent.nonce r _ nonce deadline ha hsettling
  have hsettling : y.state = .settling (Nonce.of r) deadline := hsettling
  have hfair := h.healthy.coherent.fair r _ ha
  have hcount : y.nLegs ≤ MAX_LEGS := by
    have := hfair.count
    simpa [Request.auction, Request.nLegs] using this
  have hone : events.headroom 1 = true := by
    simp only [EventBuffer.headroom, decide_eq_true_eq] at hroom ⊢
    omega
  have hall : events.headroom (y.nLegs + 1) = true := by
    simp only [EventBuffer.headroom, decide_eq_true_eq] at hroom ⊢
    omega
  cases status with
  | unknown => cases hterminal
  | pending => cases hterminal
  | settled =>
      refine ⟨e.settleRequest r (Nonce.of r) events, ?_⟩
      simp [pollSettlement, resolveNonce_of_request hy, hy, hsettling, hone]
  | reverted =>
      refine ⟨e.failRequest r (Nonce.of r) events, ?_⟩
      simp [pollSettlement, resolveNonce_of_request hy, hy, hsettling, hall]

/-- Every reserved claim of `account` is live. -/
def Swept (e : Engine) (account now : Nat) : Prop :=
  ∀ c k x, e.market.claims c = some k → k.account = account → k.status = .reserved x → now < x

/-- A mirror update of a known account writes its free balance and nothing else. -/
theorem market_creditAccount {account free : Nat} {events : EventBuffer} {m : MirroredBalance}
    (hm : e.ledger.account account = some m) :
    (e.perform (.creditAccount account free) now events).2.1.market =
      e.market.modifyTotals account fun t => { t with free } := by
  have hbook : (e.ledger.modifyAccount account fun b => { b with free }).book =
      e.ledger.book.modifyTotals account fun t => { t with free } :=
    Ledger.book_modifyAccount _ fun _ => rfl
  simp only [Engine.perform, Ledger.applyMirrorUpdate, hm]
  exact congrArg Book.market hbook

theorem effect_creditAccount {account free : Nat} {events : EventBuffer}
    (hswept : (e.market.totals account).isSome = true → e.Swept account now) :
    Effect now e (e.perform (.creditAccount account free) now events).2.1 []
      (.creditAccount account free) := by
  cases hm : e.ledger.account account with
  | none =>
      have hnone : e.market.totals account = none := by
        show (e.ledger.account account).map _ = none
        rw [hm]
        rfl
      refine effect_same ?_ rfl (by rintro _ _ _ _ _ ⟨⟩) ?_
      · simp only [Engine.perform, Ledger.applyMirrorUpdate, hm]
        rfl
      · rintro _ _ ⟨⟩
        exact hnone
  | some m =>
      have hsome : (e.market.totals account).isSome = true := by
        show ((e.ledger.account account).map _).isSome = true
        rw [hm]
        rfl
      have hmarket : (e.perform (.creditAccount account free) now events).2.1.market =
          e.market.modifyTotals account fun t => { t with free } := market_creditAccount hm
      refine .credited (hmarket ▸ .one (.mirror rfl)) (fun t ht => ?_) ?_ rfl
      · rw [hmarket] at ht
        simp only [Market.modifyTotals, Function.update_self, Option.map_eq_some_iff] at ht
        obtain ⟨t₀, -, rfl⟩ := ht
        rfl
      · rw [hmarket]
        exact fun c k x hk ha hs => hswept hsome c k x hk ha hs

theorem Sane.effect_pollSettlement {nonce : Nonce} {status : TxStatus} (h : e.Sane)
    (hcap : MAX_LEGS + 1 ≤ capacity) :
    Effect now e (e.perform (.pollSettlement nonce status) now (.withCapacity capacity)).2.1
      ((e.perform (.pollSettlement nonce status) now (.withCapacity capacity)).2.2.events.filterMap
        bundleFrom) (.pollSettlement nonce status) := by
  have hroom : (EventBuffer.withCapacity capacity).headroom (MAX_LEGS + 1) = true := by
    simpa [EventBuffer.headroom, EventBuffer.withCapacity] using hcap
  rw [Engine.perform]
  have hcases : (∃ err, e.pollSettlement nonce status now (.withCapacity capacity) = _) ∨ _ :=
    h.healthy.pollSettlement
  rcases hcases with
    ⟨err, heq⟩ | ⟨b, heq, hquiet, hopen⟩ | ⟨r, y, d, w', hy, hsettling, hnonce, -, hterminal, heq, hres⟩
  · refine heq ▸ effect_same rfl rfl ?_ (by rintro _ _ ⟨⟩)
    rintro _ _ r a d ⟨⟩ hterminal ha hsettling
    obtain ⟨w', hdone⟩ : ∃ w', e.pollSettlement nonce status now (.withCapacity capacity) = e.done w' :=
      h.poll_resolves ha hsettling hterminal hroom
    cases heq.symm.trans hdone
  · rw [heq]
    refine effect_same rfl (bundles_of_quiet hquiet) ?_ (by rintro _ _ ⟨⟩)
    rintro _ _ r a d ⟨⟩ hterminal
    rw [hopen] at hterminal
    cases hterminal
  · rw [heq]
    subst hnonce
    refine .resolved hterminal (a := y.auction) ?_ (bundles_of_quiet hres.carried.quiet)
    refine ⟨Ledger.market_auctions hy, ⟨d, hsettling⟩, hres.resolved, fun account t ht => ?_,
      hres.carried.steps⟩
    obtain ⟨t', ht', hfree, hclaimed⟩ := hres.totals account t ht
    exact ⟨t', ht', hfree, hclaimed.ge⟩

/-- A live winner's offer stands, backed by its reserved claim. -/
theorem Sane.winner {y : Request} {i : Nat} {f : Fill} (h : e.Sane) (hb : e.market.Backed now)
    (hwins : Ledger.Wins e.ledger r y now i f) : Winner e.market r f.bundleLeg := by
  have ho := hwins.fits.onLeg.offer
  have hactive := hwins.fits.onLeg.active
  refine ⟨⟨f.quote, f.offer, ho, hwins.fits.onLeg.request, rfl, rfl⟩, ?_⟩
  obtain ⟨c, k, hk, howner⟩ := hb.offers f.quote f.offer ho hactive hwins.live
  obtain ⟨o, leg, ho', -, hbacks⟩ := h.healthy.coherent.offered c k f.quote hk howner
  obtain rfl : o = f.offer := Option.some.inj (ho'.symm.trans ho)
  refine ⟨c, k, f.quote, hk, hbacks.account, howner, ?_⟩
  cases hs : k.status with
  | reserved x =>
      rw [(hbacks.reserved x hs).2]
      rfl
  | committed r' =>
      have := (hbacks.committed r' hs).1
      rw [hactive] at this
      cases this

theorem Sane.accepts {fills : List Fill} {acc : Acceptance} {w' : Work} {max : Nat} (h : e.Sane)
    (hb : e.market.Backed now) (hchecked : Checked e r now (.withCapacity capacity) fills acc)
    (haccepted : Accepted max r now acc.record.auction acc.total (Ledger.intentOf r acc) fills
      (e.ledger, .withCapacity capacity) w') :
    Accepts now r (bundleOf r acc.record.requester fills) acc.record.auction e (e.done w').2.1 where
  auction := Ledger.market_auctions hchecked.record
  opened := hchecked.opened
  deadline := hchecked.deadline
  settling := haccepted.settling
  contracts := by
    rw [← hchecked.legs, bundleOf, List.map_map, List.map_map]
    rfl
  requester := rfl
  winners := by
    intro leg hleg
    obtain ⟨f, hf, rfl⟩ := List.mem_map.mp hleg
    obtain ⟨i, hi⟩ := List.mem_iff_getElem?.mp hf
    exact h.winner hb (hchecked.wins i f hi)
  live := by
    intro leg hleg
    obtain ⟨f, hf, rfl⟩ := List.mem_map.mp hleg
    obtain ⟨i, hi⟩ := List.mem_iff_getElem?.mp hf
    exact (hchecked.wins i f hi).live
  collateral := ⟨e, .refl h, h.collateralises hb hchecked haccepted⟩
  steps := haccepted.steps

/-- A gateway command other than an accept. -/
theorem effect_gateway {answer : Answer} (hgateway : command.isGateway = true)
    (haccept : ∀ r expected, command ≠ .acceptRequest r expected)
    (hp : Performs e now (.withCapacity capacity) command answer) :
    Effect now e answer.2.1 (answer.2.2.events.filterMap bundleFrom) command := by
  have hstill : ∀ {e' : Engine} {bundles : List Bundle}, e'.market = e.market → bundles = [] →
      Effect now e e' bundles command := by
    intro e' bundles hmarket hbundles
    refine effect_same hmarket hbundles ?_ ?_
    · rintro _ _ _ _ _ rfl
      cases hgateway
    · rintro _ _ rfl
      cases hgateway
  cases hp with
  | refused => exact hstill rfl rfl
  | traded hfor hcalm hcarried =>
      refine .traded hgateway hcalm ?_ hcarried.steps (bundles_of_quiet hcarried.quiet)
      rintro account free rfl
      cases command with
      | creditAccount => cases hgateway
      | submitQuote => rcases hfor with hfor | ⟨_, _, hfor, -⟩ <;> cases hfor
      | pollSettlement => cases hgateway
      | _ => cases hfor
  | withdrawn _ hcarried =>
      refine .traded hgateway ?_ (by simp) hcarried.steps (bundles_of_quiet hcarried.quiet)
      simp [Scope.Calm]
  | registered hnew => exact hstill (market_registerContract _ _ _) rfl
  | reported => cases hgateway
  | accepted => exact absurd rfl (haccept _ _)
  | resolved => cases hgateway
  | paid => cases hgateway

/-- Every command, on a normalised engine. -/
theorem Sane.effect_perform (h : e.Sane) (hb : e.market.Backed now) (hcap : MAX_LEGS + 1 ≤ capacity)
    (hswept : ∀ account free, command = .creditAccount account free →
      (e.market.totals account).isSome = true → e.Swept account now) :
    Effect now e (e.perform command now (.withCapacity capacity)).2.1
      ((e.perform command now (.withCapacity capacity)).2.2.events.filterMap bundleFrom) command := by
  have hperforms := h.performs command now (.withCapacity capacity)
  cases command with
  | creditAccount account free =>
      have hbundles : (e.perform (.creditAccount account free) now
          (.withCapacity capacity)).2.2.events.filterMap bundleFrom = [] := by
        generalize e.perform (.creditAccount account free) now (.withCapacity capacity) = answer
          at hperforms
        cases hperforms with
        | refused => rfl
        | traded _ _ hcarried => exact bundles_of_quiet hcarried.quiet
      rw [hbundles]
      exact effect_creditAccount (hswept account free rfl)
  | pollSettlement nonce status => exact h.effect_pollSettlement hcap
  | acceptRequest r expected =>
      generalize e.perform (.acceptRequest r expected) now (.withCapacity capacity) = answer
        at hperforms
      cases hperforms with
      | refused =>
          exact effect_same rfl rfl (by rintro _ _ _ _ _ ⟨⟩) (by rintro _ _ ⟨⟩)
      | traded hfor hcalm => exact absurd hfor (hcalm r).1
      | accepted hchecked haccepted =>
          exact .accepted (h.accepts hb hchecked haccepted) (bundles_of_accepted hchecked haccepted)
  | reportOracleStatus contract status =>
      rw [Engine.perform]
      unfold reportOracleStatus
      split
      · exact effect_same rfl rfl (by rintro _ _ _ _ _ ⟨⟩) (by rintro _ _ ⟨⟩)
      split
      · exact effect_same rfl rfl (by rintro _ _ _ _ _ ⟨⟩) (by rintro _ _ ⟨⟩)
      split
      · exact effect_same rfl rfl (by rintro _ _ _ _ _ ⟨⟩) (by rintro _ _ ⟨⟩)
      refine effect_same rfl ?_ (by rintro _ _ _ _ _ ⟨⟩) (by rintro _ _ ⟨⟩)
      cases status with
      | final outcome =>
          simp only [resolution, List.foldl_cons, List.foldl_nil]
          exact bundles_of_quiet (EventBuffer.quiet_push rfl)
      | _ => rfl
  | settleEscrow escrow contract =>
      rw [Engine.perform]
      unfold settleEscrow
      split
      · exact effect_same rfl rfl (by rintro _ _ _ _ _ ⟨⟩) (by rintro _ _ ⟨⟩)
      split
      · exact effect_same rfl rfl (by rintro _ _ _ _ _ ⟨⟩) (by rintro _ _ ⟨⟩)
      split
      · exact effect_same rfl rfl (by rintro _ _ _ _ _ ⟨⟩) (by rintro _ _ ⟨⟩)
      refine effect_same rfl ?_ (by rintro _ _ _ _ _ ⟨⟩) (by rintro _ _ ⟨⟩)
      have hroom : (EventBuffer.withCapacity capacity).events.length <
          (EventBuffer.withCapacity capacity).capacity := Nat.lt_of_lt_of_le (Nat.succ_pos _) hcap
      rw [EventBuffer.push_of_room hroom]
      rfl
  | _ => exact effect_gateway rfl (by simp) hperforms

-- ============================================================================
-- Every input
-- ============================================================================

/-- Normalising first makes no difference to what a command does. -/
theorem Effect.lift (hn : Normalised now e n) (heffect : Effect now n e' bundles command) :
    Effect now e e' bundles command := by
  have hknown : ∀ account, n.market.totals account = none → e.market.totals account = none := by
    intro account hnone
    have hsame := (hn.steps .calm).totals_isSome (x := account)
    rw [hnone] at hsame
    exact Option.isNone_iff_eq_none.mp (by simpa using hsame.symm)
  cases heffect with
  | still hsteps hauctions hbundles hanswer hmirror =>
      exact .still (fun scope => (hn.steps scope).trans (hsteps scope)) (hauctions.trans hn.auctions)
        hbundles (fun nonce status r a d hc ht ha => hanswer nonce status r a d hc ht (hn.auctions ▸ ha))
        fun account free hc => hknown account (hmirror account free hc)
  | traded hgateway hcalm hmirror hsteps hbundles =>
      exact .traded hgateway hcalm hmirror ((hn.steps _).trans hsteps) hbundles
  | credited hsteps hmirror hlive hbundles =>
      exact .credited ((hn.steps _).trans hsteps) hmirror hlive hbundles
  | accepted haccepts hbundles =>
      refine .accepted ⟨hn.auctions ▸ haccepts.auction, haccepts.opened, haccepts.deadline,
        haccepts.settling, haccepts.contracts, haccepts.requester, fun leg hleg => ?_,
        haccepts.live, ?_, (hn.steps _).trans haccepts.steps⟩ hbundles
      · obtain ⟨hoffer, c, k, q, hk, hrest⟩ := haccepts.winners leg hleg
        refine ⟨hn.offers ▸ hoffer, c, k, q, ?_, hrest⟩
        exact (hn.steps (.resolving ⟨0, 0⟩)).claim_of_closed (by simp [Scope.Opens]) (by simp) hk
      · obtain ⟨n', hn', hcol⟩ := haccepts.collateral
        exact ⟨n', hn.trans hn', hcol⟩
  | @resolved r status a hterminal hanswers hbundles =>
      refine .resolved hterminal (a := a) ⟨hn.auctions ▸ hanswers.auction, hanswers.settling,
        hanswers.resolved, fun account t ht => ?_, (hn.steps _).trans hanswers.steps⟩ hbundles
      obtain ⟨t₁, ht₁, hmove⟩ := (hn.steps (.rejecting r)).totals ht
      obtain ⟨t', ht', hfree, hclaimed⟩ := hanswers.totals account t₁ ht₁
      have hsame : n.market.pledged r account = e.market.pledged r account :=
        ((hn.steps .calm).pledged (by simp) (by simp)).pledged account
      refine ⟨t', ht', ?_, ?_⟩
      · rcases hmove.free with heq | hcredit
        · exact hfree.trans heq
        · cases hcredit
      · rcases hmove.claimed with hle | ⟨-, hopens⟩
        · omega
        · cases hopens

/-- The accounts of a mirror update are swept before it. -/
theorem Sane.swept_normaliseAll {account free : Nat} (h : e.Sane)
    (hknown : ((e.normaliseAll (e.touchedAccounts (.creditAccount account free)) now).market.totals
      account).isSome = true) :
    (e.normaliseAll (e.touchedAccounts (.creditAccount account free)) now).Swept account now := by
  have heq : e.normaliseAll (e.touchedAccounts (.creditAccount account free)) now =
      e.normalise account now := rfl
  rw [heq] at hknown ⊢
  have hsame := ((h.normalise now account).steps .calm).totals_isSome (x := account)
  rw [hknown] at hsame
  have hsome : (e.ledger.account account).isSome = true := by
    rw [hsame]
    exact Option.isSome_map.symm
  obtain ⟨m, hm⟩ := Option.isSome_iff_exists.mp hsome
  obtain ⟨-, hswept⟩ := h.healthy.intact.releaseExpired account now (by simp [hm])
  exact fun c k x hk ha hs => hswept.live c k x hk ha hs

/-- Every input. -/
theorem Sane.effect (h : e.Sane) (hb : e.market.Backed now) (hnow : now ≤ input.now)
    (hcap : MAX_LEGS + 1 ≤ input.capacity) :
    Effect input.now e (e.step input) ((e.emits input).filterMap bundleFrom) input.command := by
  have hn := h.normalised input.command input.now
  have hb' : (e.normaliseAll (e.touchedAccounts input.command) input.now).market.Backed input.now :=
    (hb.mono hnow).steps_of h.healthy.coherent (hn.steps .calm) rfl
  refine Effect.lift hn (hn.sane.effect_perform hb' hcap ?_)
  intro account free hcommand hknown
  rw [hcommand] at hknown ⊢
  exact h.swept_normaliseAll hknown

end Engine

end RfqSettlement
