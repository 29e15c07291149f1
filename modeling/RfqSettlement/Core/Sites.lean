/-
  RfqSettlement.Core.Sites

  Where the stored quotes stand, whatever the instants were.

  `Shift` is what a command does to the stored quotes, without what it tells of them:
  unlike `Turn` it holds at any instants, also when the clock goes back and a live
  quote has lost its claim.  From it every reachable engine is `Sited`, and every leg of
  a settling request keeps the winner its accept consumed (`Market.Filled`).
-/

import RfqSettlement.Core.Turns

namespace RfqSettlement

namespace Market

variable {m m' : Market} {scope : Scope} {now : Nat} {r : ReqIdx} {a : Auction}

/-- Each leg of a settling request has been won. -/
def Filled (m : Market) : Prop :=
  ∀ r a, m.auctions r = some a → a.IsSettling → ∀ i < a.legs.length,
    ∃ q o, m.offers q = some o ∧ o.request = r ∧ o.leg = i ∧ o.state = .consumed

/-- Only an accept makes a request settle. -/
theorem Steps.settling_before (hsteps : Steps now scope m m') (hfilling : scope ≠ .filling r)
    (ha : m'.auctions r = some a) (hsettling : a.IsSettling) : m.auctions r = some a := by
  obtain ⟨n, d, hstate⟩ := hsettling
  cases hold : m.auctions r with
  | none =>
      have hnew := (hsteps.auction_new hold ha).1
      rw [hstate] at hnew
      cases hnew
  | some a₀ =>
      obtain ⟨st, hst, hmoves⟩ := hsteps.auction hold
      obtain rfl : a = a₀.withState st := Option.some.inj (ha.symm.trans hst)
      rcases hmoves with rfl | hmoves
      · rfl
      · obtain rfl : st = .settling n d := hstate
        generalize a₀.state = s at hmoves
        cases hmoves with
        | settle hscope => exact absurd hscope hfilling
        | resolve hscope hst => rcases hst with hst | hst <;> cases hst

/-- A settling request keeps its winners while they stay on the book. -/
theorem Filled.kept (hf : m.Filled) (hsteps : Steps now scope m m')
    (hkept : ∀ r a, m'.auctions r = some a → a.IsSettling → scope ≠ .filling r ∧
      ∀ q o, m.offers q = some o → o.request = r → o.state = .consumed → m'.offers q = some o) :
    m'.Filled := by
  intro r a ha hsettling i hi
  obtain ⟨hfilling, hstays⟩ := hkept r a ha hsettling
  obtain ⟨q, o, ho, hr, hleg, hs⟩ :=
    hf r a (hsteps.settling_before hfilling ha hsettling) hsettling i hi
  exact ⟨q, o, hstays q o ho hr hs, hr, hleg, hs⟩

end Market

namespace Ledger

variable {engine : Engine} {events : EventBuffer} {max : Nat} {a : Auction} {nonce : Nonce}
  {r : ReqIdx}

/-- What stands on a settling request was won: an offer of it that is active would be one
    of an open request. -/
theorem Healthy.won_of_settling {l : Ledger} {q : QuoteIdx} {o : Offer} (h : l.Healthy max none)
    (hp : l.market.Sited) (ha : l.market.auctions r = some a) (hsettling : a.IsSettling)
    (ho : l.market.offers q = some o) (hr : o.request = r) : Won l.market r q := by
  refine ⟨o, ho, hr, ?_⟩
  cases hs : o.state with
  | consumed => rfl
  | released => exact absurd hs (h.coherent.standing q o ho)
  | active =>
      obtain ⟨a', ha', hopened⟩ := hp.active q o ho hs
      obtain ⟨n, d, hset⟩ := hsettling
      rw [hr, ha, Option.some.injEq] at ha'
      rw [ha', hopened] at hset
      cases hset

/-- A settled request's winners are closed, all of them. -/
theorem Healthy.settleRequest_closes (nonce : Nonce) (events : EventBuffer)
    (h : engine.ledger.Healthy max none) (hp : engine.ledger.market.Sited)
    (ha : engine.ledger.market.auctions r = some a) (hsettling : a.IsSettling) :
    ∃ qs : List QuoteIdx, (∀ q, q ∈ qs ↔ Won engine.ledger.market r q) ∧
      ∀ q, (engine.settleRequest r nonce events).1.market.offers q =
        if q ∈ qs then none else engine.ledger.market.offers q := by
  obtain ⟨discharged, l₁, heq, hd, hdischarges⟩ := h.dischargeCommitted 0 ha hsettling
  have hoffers : l₁.market.offers = engine.ledger.market.offers := by
    have := offers_dischargeCommitted (l := engine.ledger) (r := r)
    rwa [heq] at this
  obtain ⟨h₂, hmarket₂, (- : Market.Step 0 _ _ _)⟩ := hdischarges.healthy.setResolved
    (by rw [hdischarges.auctions]; exact ha) hsettling hdischarges.cleared (.inl rfl)
  unfold Engine.settleRequest
  rw [heq]
  exact h.closes hp ha hdischarges hoffers h₂ (by rw [hmarket₂]; rfl) rfl

/-- So are a failed one's. -/
theorem Healthy.failRequest_closes (nonce : Nonce) (events : EventBuffer)
    (h : engine.ledger.Healthy max none) (hp : engine.ledger.market.Sited)
    (ha : engine.ledger.market.auctions r = some a) (hsettling : a.IsSettling) :
    ∃ qs : List QuoteIdx, (∀ q, q ∈ qs ↔ Won engine.ledger.market r q) ∧
      ∀ q, (engine.failRequest r nonce events).1.market.offers q =
        if q ∈ qs then none else engine.ledger.market.offers q := by
  obtain ⟨discharged, l₁, heq, hd, hdischarges⟩ := h.dischargeCommitted 0 ha hsettling
  have hoffers : l₁.market.offers = engine.ledger.market.offers := by
    have := offers_dischargeCommitted (l := engine.ledger) (r := r)
    rwa [heq] at this
  unfold Engine.failRequest
  rw [heq]
  exact h.closes hp ha hdischarges hoffers hdischarges.healthy rfl rfl

end Ledger

namespace Engine

open Ledger (Checked Accepted Parts intentOf Won)

variable {e : Engine} {command : Command} {answer : Answer} {now last : Nat} {events : EventBuffer}
  {r : ReqIdx} {config : Config} {nonce : Nonce}

-- ============================================================================
-- What a command does to the stored quotes
-- ============================================================================

/-- What one command, on a normalised engine, does to the stored quotes. -/
inductive Shift (e : Engine) (now : Nat) (events : EventBuffer) : Command → Answer → Prop where
  | idle {command : Command} {answer : Answer} {scope : Scope}
      (hsteps : Market.Steps now scope e.market answer.2.1.market) (hspares : ∀ r, scope.Spares r)
      (hoffers : answer.2.1.market.offers = e.market.offers) : Shift e now events command answer
  | bid {maker i price size expiresAt : Nat} {r : ReqIdx} {gone : List (QuoteIdx × Offer)}
      {fresh : Option QuoteIdx} {answer : Answer}
      (hbids : Bids e ⟨maker, r, i, price, size, expiresAt, .active⟩ events gone fresh answer) :
      Shift e now events (.submitQuote maker r i price size expiresAt) answer
  | rejected {r : ReqIdx} {gone : List (QuoteIdx × Offer)} {w' : Work}
      (hparts : Parts now .requestRejected gone [] (e.ledger, events) w')
      (hmem : ∀ q, q ∈ gone.map Prod.fst ↔ ∃ o, e.market.offers q = some o ∧ o.request = r) :
      Shift e now events (.rejectRequest r) (e.done w')
  | accepted {r : ReqIdx} {expected : List ExpectedFill} {acc : Acceptance} {fills : List Fill}
      {gone : List (QuoteIdx × Offer)} {w₁ w' : Work} (hchecked : Checked e r now events fills acc)
      (haccepted : Accepted e.config.maxQuotesPerLeg r now acc.record.auction acc.total
        (intentOf r acc) fills (e.ledger, events) w')
      (hparts : Parts now .outbid gone (fills.map Fill.quote) (e.ledger, events) w₁)
      (hoffers : w'.1.market.offers = w₁.1.market.offers)
      (hmem : ∀ q, q ∈ gone.map Prod.fst ↔
        (∃ o, e.market.offers q = some o ∧ o.request = r) ∧ q ∉ fills.map Fill.quote) :
      Shift e now events (.acceptRequest r expected) (e.done w')
  | resolved {r : ReqIdx} {a : Auction} {nonce : Nonce} {status : TxStatus} {qs : List QuoteIdx}
      {w' : Work} (hterminal : status.isTerminal = true) (hnonce : Nonce.of r = nonce)
      (ha : e.market.auctions r = some a) (hsettling : a.IsSettling)
      (hwon : ∀ q, q ∈ qs ↔ Won e.market r q)
      (hoffers : ∀ q, w'.1.market.offers q = if q ∈ qs then none else e.market.offers q) :
      Shift e now events (.pollSettlement nonce status) (e.done w')

theorem shift_of_market (hmarket : answer.2.1.market = e.market) :
    Shift e now events command answer :=
  have hsteps : Market.Steps now .calm e.market answer.2.1.market := hmarket ▸ .refl _
  .idle hsteps (fun r => ⟨by simp, by simp, by simp⟩) (by rw [hmarket])

theorem shift_refused {err : EngineError} : Shift e now events command (e.refuse events err) :=
  shift_of_market rfl

/-- Of the commands that end no quote, what they tell is all there is to add. -/
theorem Turn.shift (hturn : Turn e now events command answer)
    (hcommand : ∀ nonce status, command ≠ .pollSettlement nonce status) :
    Shift e now events command answer := by
  cases hturn with
  | idle _ hsteps hspares hoffers _ => exact .idle hsteps hspares hoffers
  | bid hbids => exact .bid hbids
  | rejected hparts _ hmem => exact .rejected hparts hmem
  | accepted hchecked haccepted hparts hoffers _ _ hmem =>
      exact .accepted hchecked haccepted hparts hoffers hmem
  | escrowed => exact absurd rfl (hcommand _ _)
  | failed => exact absurd rfl (hcommand _ _)

theorem Sane.shift_pollSettlement {status : TxStatus} (h : e.Sane) (hp : e.market.Sited) :
    Shift e now events (.pollSettlement nonce status)
      (e.pollSettlement nonce status now events) := by
  unfold pollSettlement
  split
  · exact shift_refused
  next r hresolve =>
  split
  · exact shift_refused
  next y hy =>
  split
  next nonce' d hstate =>
    split
    · exact shift_refused
    next heq =>
    obtain rfl : nonce' = nonce := by simpa using heq
    have ha := Ledger.market_auctions hy
    have hsettling : y.auction.IsSettling := ⟨nonce', d, hstate⟩
    have hnonce := Ledger.resolveNonce_eq hresolve
    cases status with
    | settled =>
        dsimp only
        split
        · exact shift_refused
        obtain ⟨qs, hwon, hoffers⟩ := h.healthy.settleRequest_closes nonce' events hp ha hsettling
        exact .resolved rfl hnonce ha hsettling hwon hoffers
    | reverted =>
        dsimp only
        split
        · exact shift_refused
        obtain ⟨qs, hwon, hoffers⟩ := h.healthy.failRequest_closes nonce' events hp ha hsettling
        exact .resolved rfl hnonce ha hsettling hwon hoffers
    | _ =>
        dsimp only
        split
        · exact shift_of_market rfl
        split
        · exact shift_refused
        · exact shift_of_market rfl
  next => exact shift_refused

/-- Every command. -/
theorem Sane.shift (command : Command) (now : Nat) (events : EventBuffer) (h : e.Sane)
    (hp : e.market.Sited) : Shift e now events command (e.perform command now events) := by
  cases command with
  | submitQuote maker r i price size expiresAt =>
      obtain ⟨gone, fresh, hbids⟩ := h.bids hp
      exact .bid hbids
  | pollSettlement nonce status => exact h.shift_pollSettlement hp
  | creditAccount account free => exact h.turn_creditAccount.shift (by simp)
  | registerContract contract eventDate => exact turn_registerContract.shift (by simp)
  | submitRequest requester deadline specs => exact h.turn_submitRequest.shift (by simp)
  | rejectRequest r => exact h.turn_rejectRequest.shift (by simp)
  | acceptRequest r expected => exact h.turn_acceptRequest.shift (by simp)
  | reportOracleStatus contract status => exact turn_reportOracleStatus.shift (by simp)
  | settleEscrow escrow contract => exact turn_settleEscrow.shift (by simp)
  | cancelQuote q =>
      rw [Engine.perform]
      split <;> exact shift_refused

/-- The scope of a poll spares every request but the one its nonce names. -/
theorem spares_of_poll {status : TxStatus} {scope : Scope} (hnonce : Nonce.of r = nonce)
    (hfor : scope.For e.market (.pollSettlement nonce status)) (r' : ReqIdx) (hne : r' ≠ r) :
    scope.Spares r' := by
  rcases hfor with rfl | ⟨r'', rfl, hnonce', -⟩
  · exact ⟨by simp, by simp, by simp⟩
  · obtain rfl := Nonce.of_injective (hnonce.trans hnonce'.symm)
    exact ⟨by simp, by simp, by simpa using Ne.symm hne⟩

-- ============================================================================
-- Every stored quote has its site
-- ============================================================================

theorem Bids.sited {o : Offer} {gone : List (QuoteIdx × Offer)} {fresh : Option QuoteIdx}
    {scope : Scope} (hbids : Bids e o events gone fresh answer) (ho : o.state = .active)
    (hp : e.market.Sited) (hsteps : Market.Steps now scope e.market answer.2.1.market)
    (hspares : ∀ r, scope.Spares r) : answer.2.1.market.Sited := by
  refine hp.extend (fun q o' => fresh = some q ∧ o' = o) hsteps (fun q o' ho' => ?_) ?_ ?_
  · rcases hbids.cases q o' ho' with ⟨hold, -⟩ | hnew
    · exact .inl ⟨hold, hspares _⟩
    · exact .inr hnew
  · rintro q o' ⟨hfresh, rfl⟩ -
    exact hbids.lone hsteps hspares hfresh
  · rintro q o' ⟨-, rfl⟩ hs
    rw [ho] at hs
    cases hs

theorem sited_of_accepted {acc : Acceptance} {fills : List Fill}
    {gone : List (QuoteIdx × Offer)} {w₁ w' : Work} (hp : e.market.Sited)
    (hchecked : Checked e r now events fills acc)
    (haccepted : Accepted e.config.maxQuotesPerLeg r now acc.record.auction acc.total
      (intentOf r acc) fills (e.ledger, events) w')
    (hparts : Parts now .outbid gone (fills.map Fill.quote) (e.ledger, events) w₁)
    (hoffers : w'.1.market.offers = w₁.1.market.offers)
    (hmem : ∀ q, q ∈ gone.map Prod.fst ↔
      (∃ o, e.market.offers q = some o ∧ o.request = r) ∧ q ∉ fills.map Fill.quote) :
    w'.1.market.Sited := by
  have hcases := offers_of_accepted hchecked hparts hoffers hmem
  refine hp.extend (fun q o => ∃ f ∈ fills, f.quote = q ∧ o = f.offer.consume)
    haccepted.steps (fun q o ho => ?_) ?_ ?_
  · rcases hcases q o ho with ⟨hold, hne⟩ | hnew
    · exact .inl ⟨hold, by simpa using Ne.symm hne, by simp, by simp⟩
    · exact .inr hnew
  · rintro q o ⟨f, -, -, rfl⟩ hs
    cases hs
  · rintro q o ⟨f, hf, rfl, rfl⟩ - q' o' ho' - hr hleg
    exact fill_alone hchecked hcases hf q' o' ho' hr hleg

theorem Shift.sited (hshift : Shift e now events command answer) (h : e.Sane)
    (hp : e.market.Sited)
    (hsteps : ∃ scope, scope.For e.market command ∧
      Market.Steps now scope e.market answer.2.1.market) : answer.2.1.market.Sited := by
  obtain ⟨scope, hfor, hsteps⟩ := hsteps
  cases hshift with
  | idle hsteps hspares hoffers =>
      exact hp.spared hsteps fun q o ho => ⟨hoffers ▸ ho, hspares _⟩
  | bid hbids =>
      refine hbids.sited rfl hp hsteps fun r => ?_
      rcases hfor with rfl | ⟨q, o, rfl, -⟩ <;> exact ⟨by simp, by simp, by simp⟩
  | rejected hparts hmem =>
      obtain rfl := hfor
      refine hp.spared hsteps fun q o ho => ?_
      have ho : _ = some o := (hparts.sheds.offers q).symm.trans ho
      split at ho
      · cases ho
      next hstays =>
      rw [if_neg (by simp)] at ho
      refine ⟨ho, by simp, ?_, by simp⟩
      rintro ⟨-⟩
      exact hstays ((hmem q).mpr ⟨o, ho, rfl⟩)
  | accepted hchecked haccepted hparts hoffers hmem =>
      exact sited_of_accepted hp hchecked haccepted hparts hoffers hmem
  | @resolved r a nonce status qs w' _ hnonce ha hsettling hwon hoffers =>
      refine hp.spared hsteps fun q o ho => ?_
      have ho : _ = some o := (hoffers q).symm.trans ho
      split at ho
      · cases ho
      next hstays =>
      exact ⟨ho, spares_of_poll hnonce hfor _ fun hr => hstays ((hwon q).mpr
        (h.healthy.won_of_settling hp ha hsettling ho hr))⟩

theorem Normalised.sited {n : Engine} (hn : Normalised now e n) (hp : e.market.Sited) :
    n.market.Sited :=
  hp.spared (hn.steps .calm) fun q o ho => ⟨hn.offers ▸ ho, by simp, by simp, by simp⟩

/-- Every stored quote has its site, whatever the instants. -/
theorem Reachable.sited (h : Reachable config e) : e.market.Sited := by
  induction h with
  | new h => exact (placed_new h).sited
  | @step e h input ih =>
      have hs := sane_of_reachable h
      have hn := hs.normalised input.command input.now
      obtain ⟨scope, hfor, hadv⟩ :=
        hn.sane.advances input.command input.now (.withCapacity input.capacity)
      exact (hn.sane.shift input.command input.now (.withCapacity input.capacity)
        (hn.sited ih)).sited hn.sane (hn.sited ih) ⟨scope, hfor, hadv.steps⟩

-- ============================================================================
-- Every leg of a settling request has its winner
-- ============================================================================

theorem Bids.filled {o : Offer} {gone : List (QuoteIdx × Offer)} {fresh : Option QuoteIdx}
    {scope : Scope} (hbids : Bids e o events gone fresh answer) (hf : e.market.Filled)
    (hsteps : Market.Steps now scope e.market answer.2.1.market) (hspares : ∀ r, scope.Spares r) :
    answer.2.1.market.Filled := by
  refine hf.kept hsteps fun r a _ _ => ⟨(hspares r).filling, fun q o' ho' _ hs => ?_⟩
  have hfresh : fresh ≠ some q := by
    intro hfresh
    obtain ⟨hnone, -⟩ := hbids.unspent q hfresh
    cases hnone.symm.trans ho'
  have hstays : q ∉ gone.map Prod.fst := by
    intro hmem
    obtain ⟨v, hv, rfl⟩ := List.mem_map.mp hmem
    obtain ⟨hstored, hactive, -⟩ := hbids.stored v hv
    rw [Option.some.inj (hstored.symm.trans ho'), hs] at hactive
    cases hactive
  rw [hbids.offers, if_neg hfresh, if_neg hstays]
  exact ho'

theorem filled_of_accepted {acc : Acceptance} {fills : List Fill}
    {gone : List (QuoteIdx × Offer)} {w₁ w' : Work} (hf : e.market.Filled)
    (hchecked : Checked e r now events fills acc)
    (haccepted : Accepted e.config.maxQuotesPerLeg r now acc.record.auction acc.total
      (intentOf r acc) fills (e.ledger, events) w')
    (hparts : Parts now .outbid gone (fills.map Fill.quote) (e.ledger, events) w₁)
    (hoffers : w'.1.market.offers = w₁.1.market.offers)
    (hmem : ∀ q, q ∈ gone.map Prod.fst ↔
      (∃ o, e.market.offers q = some o ∧ o.request = r) ∧ q ∉ fills.map Fill.quote) :
    w'.1.market.Filled := by
  have hfinal : ∀ q, w'.1.market.offers q = if q ∈ gone.map Prod.fst then none
      else if q ∈ fills.map Fill.quote then (e.market.offers q).map Offer.consume
      else e.market.offers q := fun q => by rw [hoffers, hparts.sheds.offers]; rfl
  intro r' a ha hsettling i hi
  by_cases hr : r' = r
  · -- the request accepted: one fill a leg, each consumed now
    subst hr
    obtain ⟨d, hset⟩ := haccepted.settling
    obtain rfl : acc.record.auction.withState (.settling (Nonce.of r') d) = a :=
      Option.some.inj (hset.symm.trans ha)
    rw [Auction.legs_withState, ← hchecked.legs, List.length_map] at hi
    obtain ⟨f, hj⟩ : ∃ f, fills[i]? = some f := ⟨fills[i], List.getElem?_eq_getElem hi⟩
    have hfit := (hchecked.wins i f hj).fits.onLeg
    have hwon : f.quote ∈ fills.map Fill.quote :=
      List.mem_map_of_mem (List.mem_of_getElem? hj)
    refine ⟨f.quote, f.offer.consume, ?_, hfit.request, hfit.leg, rfl⟩
    rw [hfinal, if_neg fun hgone => ((hmem f.quote).mp hgone).2 hwon, if_pos hwon,
      show e.market.offers f.quote = some f.offer from hfit.offer]
    rfl
  · have hbefore := haccepted.steps.settling_before (by simpa using Ne.symm hr) ha hsettling
    obtain ⟨q, o, ho, hrequest, hleg, hs⟩ := hf r' a hbefore hsettling i hi
    have hother : ∀ o', e.market.offers q = some o' → o'.request ≠ r := by
      intro o' ho'
      rw [← Option.some.inj (ho.symm.trans ho'), hrequest]
      exact hr
    have hwon : q ∉ fills.map Fill.quote := by
      intro hmem
      obtain ⟨f, hf, rfl⟩ := List.mem_map.mp hmem
      obtain ⟨j, hj⟩ := List.mem_iff_getElem?.mp hf
      have hfit := (hchecked.wins j f hj).fits.onLeg
      exact hother _ hfit.offer hfit.request
    refine ⟨q, o, ?_, hrequest, hleg, hs⟩
    rw [hfinal, if_neg, if_neg hwon]
    · exact ho
    · intro hgone
      obtain ⟨⟨o', ho', hr'⟩, -⟩ := (hmem q).mp hgone
      exact hother o' ho' hr'

/-- A resolved request does not settle. -/
theorem Sane.resolved_of_done {status : TxStatus} {w' : Work} (h : e.Sane)
    (hterminal : status.isTerminal = true) (hnonce : Nonce.of r = nonce)
    (heq : e.perform (.pollSettlement nonce status) now events = e.done w') :
    ∀ a, w'.1.market.auctions r = some a → ¬ a.IsSettling := by
  rcases h.healthy.pollSettlement with ⟨err, heq'⟩ | ⟨b, -, -, hnot⟩ |
    ⟨r', y, d, w'', -, -, hnonce', -, -, heq', hresolves⟩
  · cases (congrArg Prod.fst heq').symm.trans (congrArg Prod.fst heq)
  · rw [hterminal] at hnot
    cases hnot
  · obtain rfl := Nonce.of_injective (hnonce.trans hnonce'.symm)
    have hdone : e.done w'' = e.done w' := Eq.trans heq'.symm heq
    simp only [Engine.done, Prod.mk.injEq, Engine.mk.injEq] at hdone
    have hresolved := hresolves.resolved
    rw [hdone.2.1.2.1] at hresolved
    intro a ha
    obtain rfl := Option.some.inj (hresolved.symm.trans ha)
    rintro ⟨n, d, hstate⟩
    cases status <;> cases hstate

theorem Shift.filled (hshift : Shift e now events command answer)
    (hanswer : e.perform command now events = answer) (h : e.Sane) (hf : e.market.Filled)
    (hsteps : ∃ scope, scope.For e.market command ∧
      Market.Steps now scope e.market answer.2.1.market) : answer.2.1.market.Filled := by
  obtain ⟨scope, hfor, hsteps⟩ := hsteps
  cases hshift with
  | idle hsteps hspares hoffers =>
      exact hf.kept hsteps fun r _ _ _ => ⟨(hspares r).filling, fun q o ho _ _ => hoffers ▸ ho⟩
  | bid hbids =>
      refine hbids.filled hf hsteps fun r => ?_
      rcases hfor with rfl | ⟨q, o, rfl, -⟩ <;> exact ⟨by simp, by simp, by simp⟩
  | @rejected r gone w' hparts hmem =>
      obtain rfl := hfor
      refine hf.kept hsteps fun r' a _ _ => ⟨by simp, fun q o ho _ hs => ?_⟩
      -- what a reject takes off the book was active
      have hstays : q ∉ gone.map Prod.fst := by
        intro hgone
        obtain ⟨v, hv, rfl⟩ := List.mem_map.mp hgone
        have hactive := hparts.active v hv
        rw [Option.some.inj ((hparts.sheds.stored v hv).symm.trans ho), hs] at hactive
        cases hactive
      exact (hparts.sheds.offers q).trans (by rw [if_neg hstays, if_neg (by simp)]; exact ho)
  | accepted hchecked haccepted hparts hoffers hmem =>
      exact filled_of_accepted hf hchecked haccepted hparts hoffers hmem
  | @resolved r a nonce status qs w' hterminal hnonce ha hsettling hwon hoffers =>
      have hresolved := h.resolved_of_done hterminal hnonce hanswer
      refine hf.kept hsteps fun r' a ha hsettling => ⟨?_, fun q o ho hr hs => ?_⟩
      · rcases hfor with rfl | ⟨r'', rfl, -⟩ <;> simp
      · refine (hoffers q).trans ?_
        rw [if_neg]
        · exact ho
        · intro hmem
          obtain ⟨o', ho', hr', -⟩ := (hwon q).mp hmem
          obtain rfl : o = o' := Option.some.inj (ho.symm.trans ho')
          rw [← hr, hr'] at ha
          exact hresolved a ha hsettling

theorem Normalised.filled {n : Engine} (hn : Normalised now e n) (hf : e.market.Filled) :
    n.market.Filled :=
  hf.kept (hn.steps .calm) fun _ _ _ _ => ⟨by simp, fun _ _ ho _ _ => hn.offers ▸ ho⟩

/-- Every leg of a settling request keeps its winner, whatever the instants. -/
theorem Reachable.filled (h : Reachable config e) : e.market.Filled := by
  induction h with
  | new h =>
      obtain ⟨-, rfl⟩ := new_eq_ok h
      intro r a ha
      cases (congrFun (market_new config).2.1 r).symm.trans ha
  | @step e h input ih =>
      have hs := sane_of_reachable h
      have hn := hs.normalised input.command input.now
      obtain ⟨scope, hfor, hadv⟩ :=
        hn.sane.advances input.command input.now (.withCapacity input.capacity)
      exact (hn.sane.shift input.command input.now (.withCapacity input.capacity)
        (hn.sited h.sited)).filled rfl hn.sane (hn.filled ih) ⟨scope, hfor, hadv.steps⟩

end Engine

end RfqSettlement
