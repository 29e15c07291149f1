/-
  RfqSettlement.Core.Presentation

  The feed of best prices over whole runs.

  What a leg keeps is the last price the run has published for it (`Displayed`), so
  an accepted quote leaves the feed at the best price of its leg.  While no other
  quote is addressed to the leg and its request stays open, its quotes stay as they
  are (`leg_untouched`); so until one of them dies the last published prices are
  what an accept finds.
-/

import RfqSettlement.Core.Publication

namespace RfqSettlement

-- ============================================================================
-- The feed of one leg
-- ============================================================================

/-- A leg not yet stored has published nothing; a stored one keeps the last price it
    published, each another than the one before, and none above its limit. -/
inductive Displayed (shown : Option (Option Nat × Nat)) (prices : List Nat) : Prop where
  | absent (h : shown = none) (hnone : prices = [])
  | kept {limit : Nat} (h : shown = some (prices.getLast?, limit)) (hle : ∀ p ∈ prices, p ≤ limit)
      (hchain : prices.IsChain (· ≠ ·))

theorem Displayed.isChain {shown : Option (Option Nat × Nat)} {prices : List Nat}
    (h : Displayed shown prices) : prices.IsChain (· ≠ ·) := by
  cases h with
  | absent _ hnone => rw [hnone]; exact .nil
  | kept _ _ hchain => exact hchain

/-- One input more. -/
theorem Displayed.step {before after : Option (Option Nat × Nat)} {prices new : List Nat}
    (h : Displayed before prices) (hshows : Shows before after new) :
    Displayed after (prices ++ new) := by
  cases hshows with
  | same heq =>
      rw [heq, List.append_nil]
      exact h
  | opened hbefore hafter =>
      cases h with
      | absent _ hnone =>
          rw [hnone, List.nil_append]
          exact .kept hafter (by simp) .nil
      | kept hkept _ _ => cases hbefore.symm.trans hkept
  | @published last limit price hbefore hafter hnew hle =>
      cases h with
      | absent hnone _ => cases hnone.symm.trans hbefore
      | @kept limit' hkept hall hchain =>
          obtain ⟨rfl, rfl⟩ := Prod.mk.inj (Option.some.inj (hbefore.symm.trans hkept))
          have hlast : after = some ((prices ++ [price]).getLast?, limit) := by
            rw [hafter, List.getLast?_append, List.getLast?_singleton]
            rfl
          refine .kept hlast (fun p hp => ?_) (List.isChain_append.mpr ⟨hchain, .singleton _, ?_⟩)
          · rcases List.mem_append.mp hp with hold | hnew
            · exact hall p hold
            · rwa [List.mem_singleton.mp hnew]
          · intro p hp p' hp'
            rw [List.head?_cons, Option.mem_some_iff] at hp'
            subst hp'
            rintro rfl
            exact hnew hp

namespace Engine

open Ledger (QuotedOn)

variable {e : Engine} {config : Config} {now last start : Nat} {input : Input} {inputs : List Input}
  {r : ReqIdx} {i n : Nat} {y : Request} {leg : Leg} {best : Selection}

theorem emitted_cons : e.emitted (input :: inputs) = e.emits input ++ (e.step input).emitted inputs := rfl

/-- A whole run. -/
theorem displayed_run {prices : List Nat} (h : Reachable config e)
    (hd : Displayed (e.ledger.shown r i) prices) :
    Displayed ((e.run inputs).ledger.shown r i) (prices ++ pricesOf r i (e.emitted inputs)) := by
  induction inputs generalizing e prices with
  | nil =>
      show Displayed (e.ledger.shown r i) (prices ++ [])
      rwa [List.append_nil]
  | cons input inputs ih =>
      have hstep := hd.step ((sane_of_reachable h).shows input r i).1
      rw [emitted_cons, pricesOf_append, ← List.append_assoc]
      exact ih (h.step input) hstep

theorem displayed_of_new (h : Engine.new config = .ok e) (inputs : List Input) (r : ReqIdx)
    (i : Nat) : Displayed ((e.run inputs).ledger.shown r i) (pricesOf r i (e.emitted inputs)) := by
  have hnone : e.ledger.request r = none := by
    obtain ⟨-, rfl⟩ := new_eq_ok h
    exact Slab.get_withCapacity _
  have habsent : e.ledger.shown r i = none := by
    rw [Ledger.shown, Ledger.legOf, hnone]
    rfl
  exact displayed_run (.new h) (.absent habsent rfl)

/-- A leg of a run from the start, and its feed. -/
theorem displayed_leg (h : Engine.new config = .ok e) (hr : (e.run inputs).ledger.request r = some y)
    (hleg : y.leg i = some leg) :
    leg.published = (pricesOf r i (e.emitted inputs)).getLast? ∧
      ∀ p ∈ pricesOf r i (e.emitted inputs), p ≤ leg.limit := by
  have hshown := Ledger.shown_of_leg hr hleg
  cases displayed_of_new h inputs r i with
  | absent habsent _ => cases habsent.symm.trans hshown
  | kept hkept hle _ =>
      obtain ⟨hlast, rfl⟩ := Prod.mk.inj (Option.some.inj (hshown.symm.trans hkept))
      exact ⟨hlast, hle⟩

/-- No published price is above its leg's limit. -/
theorem le_limit_of_published {price : Nat} (h : Engine.new config = .ok e)
    (hprice : price ∈ pricesOf r i (e.emitted inputs)) :
    ∃ y leg, (e.run inputs).ledger.request r = some y ∧ y.leg i = some leg ∧ price ≤ leg.limit := by
  cases displayed_of_new h inputs r i with
  | absent _ hnone =>
      rw [hnone] at hprice
      cases hprice
  | kept hkept hle _ =>
      obtain ⟨leg, hleg, hlimit⟩ := Option.map_eq_some_iff.mp hkept
      obtain ⟨y, hy, hleg⟩ := Option.bind_eq_some_iff.mp hleg
      obtain rfl := (Prod.mk.inj hlimit).2
      exact ⟨y, leg, hy, hleg, hle price hprice⟩

-- ============================================================================
-- Accepted quotes
-- ============================================================================

variable {maker price size expiresAt : Nat}

/-- An accepted quote leaves its leg with the best price published. -/
theorem Sane.published_of_accepted (h : e.Sane)
    (hcommand : input.command = .submitQuote maker r i price size expiresAt)
    (hok : (e.answer input).1 = .ok ()) (hr : (e.step input).ledger.request r = some y)
    (hleg : y.leg i = some leg) (hbest : (e.step input).ledger.bestOnLeg leg input.now = .ok best) :
    leg.published = some best.price := by
  have hn : (e.normalisedFor input).Sane := (h.normalised input.command input.now).sane
  have hanswer : e.answer input = (e.normalisedFor input).submitQuote maker r i price size expiresAt
      input.now (.withCapacity input.capacity) := by
    rw [Engine.answer, Engine.apply, normalisedFor, hcommand]
    rfl
  rw [Engine.step, hanswer] at hr hbest
  rw [hanswer] at hok
  rcases hn.submitQuote_publishes with ⟨-, -, err, herr⟩ | ⟨w, w', -, -, -, hpub, hledger, -⟩
  · cases herr.symm.trans hok
  · rw [hledger] at hr hbest
    refine hpub.exact ?_ hbest
    rw [Ledger.legOf, hr]
    exact hleg

-- ============================================================================
-- Legs at rest
-- ============================================================================

theorem rejectRequest_state {events : EventBuffer} {w : Work}
    (h : e.rejectRequest r now events = e.done w) (hr : w.1.request r = some y) :
    y.state ≠ .opened := by
  unfold Engine.rejectRequest at h
  split at h
  · cases h
  split at h
  · cases h
  split at h
  · cases h
  · have hledger := congrArg (fun a : Answer => a.2.1.ledger) h
    have hledger : _ = w.1 := hledger
    rw [← hledger] at hr
    simp only [Engine.done, Ledger.request_modifyRequest, if_true] at hr
    obtain ⟨y', -, rfl⟩ := Option.map_eq_some_iff.mp hr
    simp [Request.setState]

theorem acceptRequest_state {events : EventBuffer} {expected : List ExpectedFill} {w : Work}
    (h : e.acceptRequest r expected now events = e.done w) (hr : w.1.request r = some y) :
    y.state ≠ .opened := by
  unfold Engine.acceptRequest at h
  split at h
  · cases h
  · have hledger := congrArg (fun a : Answer => a.2.1.ledger) h
    have hledger : _ = w.1 := hledger
    rw [← hledger] at hr
    simp only [Engine.done, Engine.commitAccept, Ledger.request_modifyRequest, if_true] at hr
    obtain ⟨y', -, rfl⟩ := Option.map_eq_some_iff.mp hr
    simp [Request.setState]

/-- An open request was open before. -/
theorem opened_of_steps {m m' : Market} {scope : Scope} {a a' : Auction}
    (hsteps : Market.Steps now scope m m') (ha : m.auctions r = some a)
    (ha' : m'.auctions r = some a') (hopened : a'.state = .opened) : a.state = .opened := by
  obtain ⟨st, hst, heq | hmoves⟩ := hsteps.auction ha
  · obtain rfl := Option.some.inj (ha'.symm.trans hst)
    exact heq.symm.trans hopened
  · obtain rfl := Option.some.inj (ha'.symm.trans hst)
    have hopened : st = .opened := hopened
    rw [hopened] at hmoves
    exfalso
    generalize a.state = before at hmoves
    cases hmoves with
    | resolve _ hst => rcases hst with heq | heq <;> cases heq

/-- Quotes shed, or won, for another request. -/
theorem sheds_untouched {m m' : Market} {gone : List (QuoteIdx × Offer)} {won : List QuoteIdx}
    {s : ReqIdx} {q : QuoteIdx} {o : Offer} (hsheds : Market.Sheds gone won m m')
    (hgone : ∀ v ∈ gone, v.2.request = s)
    (hwon : ∀ q ∈ won, ∀ o', m.offers q = some o' → o'.request = s) (hne : o.request ≠ s) :
    m'.offers q = some o ↔ m.offers q = some o := by
  rw [hsheds.offers]
  split
  next hq =>
    obtain ⟨v, hv, rfl⟩ := List.mem_map.mp hq
    rw [hsheds.stored v hv]
    refine iff_of_false (by simp) fun heq => hne ?_
    rw [← Option.some.inj heq, hgone v hv]
  split
  next hq =>
    obtain ⟨-, o', ho', -⟩ := hsheds.winners q hq
    rw [ho', Option.map_some]
    refine iff_of_false (fun heq => hne ?_) fun heq => hne ?_
    · have hsame : o'.consume = o := Option.some.inj heq
      rw [← hsame]
      exact hwon q hq o' ho'
    · rw [← Option.some.inj heq]
      exact hwon q hq o' ho'
  next => exact Iff.rfl

/-- A resolution is not of an open request. -/
theorem vacates_untouched {w' : Work} {scope : Scope} {a a' : Auction} {r' : ReqIdx}
    {events : EventBuffer} {gone : List (QuoteIdx × Offer)} {q : QuoteIdx} {o : Offer}
    (hsteps : Market.Steps now scope e.market w'.1.market) (ha : e.market.auctions r' = some a)
    (hsettling : a.IsSettling) (hvacates : Ledger.Vacates (e.ledger, events) r' gone w')
    (ha' : w'.1.market.auctions r = some a') (hopened : a'.state = .opened) (hreq : o.request = r) :
    w'.1.market.offers q = some o ↔ e.market.offers q = some o := by
  have hne : r ≠ r' := by
    rintro rfl
    obtain ⟨n, d, hs⟩ := hsettling
    cases (opened_of_steps hsteps ha ha' hopened).symm.trans hs
  refine sheds_untouched hvacates.sheds (s := r') (fun v hv => ?_) (by simp) (hreq ▸ hne)
  obtain ⟨o', ho', hr', -⟩ := (hvacates.mem v.1).mp (List.mem_map_of_mem hv)
  rwa [Option.some.inj ((hvacates.sheds.stored v hv).symm.trans ho')]

/-- A command that is no quote for the leg, and leaves its request open, leaves the
    quotes on it. -/
theorem Turn.leg_untouched {command : Command} {events : EventBuffer} {a' : Auction} {q : QuoteIdx}
    {o : Offer} (h : e.Sane) (hturn : Turn e now events command (e.perform command now events))
    (hother : ∀ maker price size expiresAt, command ≠ .submitQuote maker r i price size expiresAt)
    (ha' : (e.perform command now events).2.1.market.auctions r = some a')
    (hopened : a'.state = .opened) (hreq : o.request = r) (hleg : o.leg = i) :
    (e.perform command now events).2.1.market.offers q = some o ↔ e.market.offers q = some o := by
  obtain ⟨scope, -, hadv⟩ := h.advances command now events
  generalize hanswer : e.perform command now events = answer at hturn ha' hadv ⊢
  cases hturn with
  | idle _ _ _ hoffers _ => rw [hoffers]
  | @bid maker i' price size expiresAt r' gone fresh answer hbids =>
      have hne : ¬ (r' = r ∧ i' = i) := by
        rintro ⟨rfl, rfl⟩
        exact hother _ _ _ _ rfl
      rw [hbids.offers]
      split
      next hfresh =>
        rw [(hbids.unspent q hfresh).1]
        refine iff_of_false (fun heq => hne ?_) (by simp)
        rw [← hreq, ← hleg, ← Option.some.inj heq]
        exact ⟨rfl, rfl⟩
      split
      next hq =>
        obtain ⟨v, hv, rfl⟩ := List.mem_map.mp hq
        obtain ⟨ho, -, hrivals⟩ := hbids.stored v hv
        rw [ho]
        refine iff_of_false (by simp) fun heq => hne ?_
        rw [← hreq, ← hleg, ← Option.some.inj heq]
        exact ⟨hrivals.request.symm, hrivals.leg.symm⟩
      next => exact Iff.rfl
  | @rejected r' gone w' hparts _ hmem =>
      have hne : r ≠ r' := by
        rintro rfl
        obtain ⟨y, hy, rfl⟩ := Ledger.request_of_market ha'
        exact rejectRequest_state hanswer hy hopened
      refine sheds_untouched hparts.sheds (s := r') (fun v hv => ?_) (by simp) (hreq ▸ hne)
      obtain ⟨o', ho', hr'⟩ := (hmem v.1).mp (List.mem_map_of_mem hv)
      rwa [Option.some.inj ((hparts.sheds.stored v hv).symm.trans ho')]
  | @accepted r' expected acc fills gone w₁ w' hchecked _ hparts hoffers _ _ hmem =>
      have hne : r ≠ r' := by
        rintro rfl
        obtain ⟨y, hy, rfl⟩ := Ledger.request_of_market ha'
        exact acceptRequest_state hanswer hy hopened
      refine sheds_untouched (hparts.sheds.congr hoffers) (s := r') (fun v hv => ?_)
        (fun q' hq' o' ho' => ?_) (hreq ▸ hne)
      · obtain ⟨⟨o', ho', hr'⟩, -⟩ := (hmem v.1).mp (List.mem_map_of_mem hv)
        rwa [Option.some.inj ((hparts.sheds.stored v hv).symm.trans ho')]
      · obtain ⟨f, hf, rfl⟩ := List.mem_map.mp hq'
        obtain ⟨j, hj⟩ := List.mem_iff_getElem?.mp hf
        obtain ⟨x, hx, hoffer⟩ := (hchecked.wins j f hj).stored
        have hfits := (hchecked.wins j f hj).fits
        obtain rfl := Option.some.inj ((Ledger.market_offers hx).symm.trans ho')
        rw [hoffer]
        exact hfits.onLeg.request
  | escrowed _ ha hsettling hvacates _ =>
      exact vacates_untouched hadv.steps ha hsettling hvacates ha' hopened hreq
  | failed _ ha hsettling hvacates _ =>
      exact vacates_untouched hadv.steps ha hsettling hvacates ha' hopened hreq

/-- One input that is no quote for the leg. -/
structure Rests (e e' : Engine) (r : ReqIdx) (i : Nat) : Prop where
  opened : ∃ a, e.market.auctions r = some a ∧ a.state = .opened
  offers : ∀ q o, o.request = r → o.leg = i →
    (e'.market.offers q = some o ↔ e.market.offers q = some o)

theorem ReachableAt.rests {a a' : Auction} (h : ReachableAt config last e)
    (hother : ∀ maker price size expiresAt,
      input.command ≠ .submitQuote maker r i price size expiresAt)
    (ha : e.market.auctions r = some a) (ha' : (e.step input).market.auctions r = some a')
    (hopened : a'.state = .opened) : Rests e (e.step input) r i := by
  have hn := h.sane.normalised input.command input.now
  have hturn := hn.sane.turn input.command input.now (.withCapacity input.capacity)
    (hn.placed h.placed)
  obtain ⟨scope, -, hadv⟩ := hn.sane.advances input.command input.now (.withCapacity input.capacity)
  refine ⟨⟨a, ha, opened_of_steps hadv.steps (hn.auctions ▸ ha) ha' hopened⟩, fun q o hreq hleg => ?_⟩
  rw [← hn.offers]
  exact hturn.leg_untouched hn.sane hother ha' hopened hreq hleg

theorem Sane.keepsLegs_step (h : e.Sane) (input : Input) :
    Ledger.KeepsLegs e.ledger (e.step input).ledger := by
  intro r a ha
  have hn := h.normalised input.command input.now
  obtain ⟨scope, -, hadv⟩ := hn.sane.advances input.command input.now (.withCapacity input.capacity)
  exact Ledger.keepsLegs_of_steps hadv.steps r a (hn.auctions ▸ ha)

theorem keepsLegs_run {k : Nat} (h : ReachableAt config now e)
    (hpaced : Paced (fun _ _ => True) now e inputs) (hk : k ≤ n) (hn : n ≤ inputs.length) :
    Ledger.KeepsLegs (e.run (inputs.take k)).ledger (e.run (inputs.take n)).ledger := by
  induction n, hk using Nat.le_induction with
  | base => exact fun r a ha => ⟨a, ha, rfl⟩
  | succ n hk ih =>
      have hinput : inputs[n]? = some inputs[n] := List.getElem?_eq_getElem hn
      obtain ⟨last, -, hreach⟩ := hpaced.reached h hinput
      intro r a ha
      obtain ⟨a₁, ha₁, hlegs₁⟩ := ih (by omega) r a ha
      rw [run_take_succ e hinput]
      obtain ⟨a₂, ha₂, hlegs₂⟩ := hreach.sane.keepsLegs_step inputs[n] r a₁ ha₁
      exact ⟨a₂, ha₂, hlegs₂.trans hlegs₁⟩

/-- A leg between its last quote and the end of the run. -/
theorem rests_run {k : Nat} {a a' : Auction} (h : ReachableAt config now e)
    (hpaced : Paced (fun _ _ => True) now e inputs)
    (hother : ∀ m input, k ≤ m → inputs[m]? = some input → ∀ maker price size expiresAt,
      input.command ≠ .submitQuote maker r i price size expiresAt)
    (hk : k ≤ n) (hn : n ≤ inputs.length)
    (ha : (e.run (inputs.take k)).market.auctions r = some a)
    (ha' : (e.run (inputs.take n)).market.auctions r = some a') (hopened : a'.state = .opened) :
    a.state = .opened ∧ (∀ q o, o.request = r → o.leg = i →
      ((e.run (inputs.take n)).market.offers q = some o ↔
        (e.run (inputs.take k)).market.offers q = some o)) ∧
    pricesOf r i (e.emitted (inputs.take n)) = pricesOf r i (e.emitted (inputs.take k)) := by
  induction n, hk using Nat.le_induction generalizing a' with
  | base =>
      obtain rfl := Option.some.inj (ha.symm.trans ha')
      exact ⟨hopened, fun _ _ _ _ => Iff.rfl, rfl⟩
  | succ n hk ih =>
      have hinput : inputs[n]? = some inputs[n] := List.getElem?_eq_getElem hn
      obtain ⟨last, -, hreach⟩ := hpaced.reached h hinput
      rw [run_take_succ e hinput] at ha' ⊢
      obtain ⟨a₁, ha₁, -⟩ := keepsLegs_run h hpaced hk (by omega) r a ha
      have hrests := hreach.rests (fun maker price size expiresAt =>
        hother n inputs[n] hk hinput maker price size expiresAt) ha₁ ha' hopened
      obtain ⟨a₂, ha₂, hopened₁⟩ := hrests.opened
      obtain rfl := Option.some.inj (ha₁.symm.trans ha₂)
      obtain ⟨hopened₀, hoffers, hprices⟩ := ih (by omega) ha₁ hopened₁
      refine ⟨hopened₀, fun q o hreq hleg =>
        (hrests.offers q o hreq hleg).trans (hoffers q o hreq hleg), ?_⟩
      rw [emitted_take_succ hinput, pricesOf_append, hprices,
        (hreach.sane.shows inputs[n] r i).2 fun maker price size expiresAt =>
          hother n inputs[n] hk hinput maker price size expiresAt, List.append_nil]

-- ============================================================================
-- Accepts
-- ============================================================================

variable {l l' : Ledger}

/-- The quotes of a leg at two instants, none of them dying in between. -/
structure SameLeg (l l' : Ledger) (r : ReqIdx) (i : Nat) (leg leg' : Leg) (t now : Nat) : Prop where
  offers : ∀ q o, o.request = r → o.leg = i →
    (l'.market.offers q = some o ↔ l.market.offers q = some o)
  spec : leg'.spec = leg.spec
  later : t ≤ now
  survive : ∀ q x, l.QuotedOn r i q x → x.isLiveAt t = true → now < x.expiresAt

theorem SameLeg.quoted {leg' : Leg} {t : Nat} {q : QuoteIdx} {x : Quote}
    (h : SameLeg l l' r i leg leg' t now) (hq : l.QuotedOn r i q x) :
    ∃ x', l'.QuotedOn r i q x' ∧ x'.offer = x.offer := by
  have ho := (h.offers q x.offer hq.request hq.leg).mpr (Ledger.market_offers hq.stored)
  obtain ⟨x', hx', hoffer⟩ := Ledger.quote_of_market ho
  exact ⟨x', ⟨hx', (congrArg Offer.request hoffer).trans hq.request,
    (congrArg Offer.leg hoffer).trans hq.leg⟩, hoffer⟩

theorem SameLeg.quoted_before {leg' : Leg} {t : Nat} {q : QuoteIdx} {x' : Quote}
    (h : SameLeg l l' r i leg leg' t now) (hq : l'.QuotedOn r i q x') :
    ∃ x, l.QuotedOn r i q x ∧ x'.offer = x.offer := by
  have ho := (h.offers q x'.offer hq.request hq.leg).mp (Ledger.market_offers hq.stored)
  obtain ⟨x, hx, hoffer⟩ := Ledger.quote_of_market ho
  exact ⟨x, ⟨hx, (congrArg Offer.request hoffer).trans hq.request,
    (congrArg Offer.leg hoffer).trans hq.leg⟩, hoffer.symm⟩

/-- What may fill the leg later is what might have before. -/
theorem SameLeg.isEligible {leg' : Leg} {t : Nat} {q : QuoteIdx} {x x' : Quote}
    (h : SameLeg l l' r i leg leg' t now) (hq : l.QuotedOn r i q x) (hoffer : x'.offer = x.offer) :
    x'.isEligible leg' now = true ↔ x.isEligible leg t = true := by
  have hlater := h.later
  have hsurvive := h.survive q x hq
  simp only [Quote.offer, Offer.mk.injEq] at hoffer
  obtain ⟨-, -, -, hprice, hsize, hexpires, hstate⟩ := hoffer
  have hspec := h.spec
  simp only [Leg.spec, LegSpec.mk.injEq] at hspec
  obtain ⟨-, -, hlegSize, hlimit⟩ := hspec
  simp only [Quote.isEligible, Quote.isLiveAt, Bool.and_eq_true, decide_eq_true_eq, hprice, hsize,
    hexpires, hstate, hlegSize, hlimit] at hsurvive ⊢
  constructor
  · rintro ⟨⟨⟨hactive, hlive⟩, hfits⟩, hpriced⟩
    exact ⟨⟨⟨hactive, by omega⟩, hfits⟩, hpriced⟩
  · rintro ⟨⟨⟨hactive, hlive⟩, hfits⟩, hpriced⟩
    exact ⟨⟨⟨hactive, hsurvive ⟨hactive, hlive⟩⟩, hfits⟩, hpriced⟩

/-- The best price later is the best price before. -/
theorem SameLeg.bestPrice {leg' : Leg} {t : Nat} {found : Except NoQuoteReason Selection}
    (h : SameLeg l l' r i leg leg' t now) (hbest : BestOf l r i leg t (.ok best))
    (hbest' : BestOf l' r i leg' now found) : ∃ best', found = .ok best' ∧ best'.price = best.price := by
  cases hbest with
  | @found q x hq helig hleast _ =>
      obtain ⟨x', hq', hoffer⟩ := h.quoted hq
      have helig' := (h.isEligible hq hoffer).mpr helig
      have hprice : x'.price = x.price := congrArg Offer.price hoffer
      cases hbest' with
      | @found q₁ x₁' hq₁' helig₁' hleast' _ =>
          obtain ⟨x₁, hq₁, hoffer₁⟩ := h.quoted_before hq₁'
          have helig₁ := (h.isEligible hq₁ hoffer₁).mp helig₁'
          have hprice₁ : x₁'.price = x₁.price := congrArg Offer.price hoffer₁
          have hle := hleast q₁ x₁ hq₁ helig₁
          have hle' := hleast' q x' hq' helig'
          refine ⟨_, rfl, ?_⟩
          show x₁'.price = x.price
          unfold Quote.Precedes at hle hle'
          omega
      | noQuotes hnone => exact absurd hq' (hnone q x')
      | allExpired _ hdead =>
          have hlive : x'.isLiveAt now = true := by
            simp only [Quote.isEligible, Bool.and_eq_true] at helig'
            exact helig'.1.1
          rw [hdead q x' hq'] at hlive
          cases hlive
      | outsideLimit _ hnone =>
          rw [hnone q x' hq'] at helig'
          cases helig'

-- ============================================================================
-- The feed
-- ============================================================================

/-- Input `n` is the last quote addressed to leg `i` of `r`: it was accepted, it left an
    eligible live quote on the leg, and what was live then is not dead at `now`. -/
structure LastQuote (e : Engine) (inputs : List Input) (r : ReqIdx) (i now n : Nat) : Prop where
  accepted : ∃ input maker price size expiresAt, inputs[n]? = some input ∧
    input.command = .submitQuote maker r i price size expiresAt ∧
    ((e.run (inputs.take n)).answer input).1 = .ok () ∧
    (∃ y leg best, (e.run (inputs.take (n + 1))).ledger.request r = some y ∧ y.leg i = some leg ∧
      (e.run (inputs.take (n + 1))).ledger.bestOnLeg leg input.now = .ok best) ∧
    ∀ q x, (e.run (inputs.take (n + 1))).ledger.QuotedOn r i q x → x.isLiveAt input.now = true →
      now < x.expiresAt
  last : ∀ m input, n + 1 ≤ m → inputs[m]? = some input → ∀ maker price size expiresAt,
    input.command ≠ .submitQuote maker r i price size expiresAt

theorem Paced.now_le {ok : Engine → Input → Prop} (hpaced : Paced ok now e inputs)
    (hinput : inputs[n]? = some input) : input.now ≤ lastInstant now inputs := by
  induction inputs generalizing now e n with
  | nil => cases hinput
  | cons first inputs ih =>
      obtain ⟨-, -, hrest⟩ := hpaced
      cases n with
      | zero =>
          obtain rfl := Option.some.inj hinput
          exact hrest.le_lastInstant
      | succ n => exact ih hrest hinput

/-- What an accepted quote leaves on the feed. -/
theorem feed_of_accepted {maker price size expiresAt : Nat} (h : Engine.new config = .ok e)
    (hpaced : Paced (fun _ _ => True) start e inputs) (hinput : inputs[n]? = some input)
    (hcommand : input.command = .submitQuote maker r i price size expiresAt)
    (hok : ((e.run (inputs.take n)).answer input).1 = .ok ())
    (hr : (e.run (inputs.take (n + 1))).ledger.request r = some y) (hleg : y.leg i = some leg)
    (hbest : (e.run (inputs.take (n + 1))).ledger.bestOnLeg leg input.now = .ok best) :
    (pricesOf r i (e.emitted (inputs.take (n + 1)))).getLast? = some best.price := by
  rw [← (displayed_leg h hr hleg).1]
  obtain ⟨last, -, hreach⟩ := hpaced.reached (.new start h) hinput
  rw [run_take_succ e hinput] at hr hbest
  exact hreach.sane.published_of_accepted hcommand hok hr hleg hbest

/-- What an accept finds on a leg whose quotes have rested since. -/
theorem LastQuote.found (h : Engine.new config = .ok e)
    (hpaced : Paced (fun _ _ => True) start e inputs) (hlast : LastQuote e inputs r i now n)
    (hnow : lastInstant start inputs ≤ now) (hr : (e.run inputs).ledger.request r = some y)
    (hopened : y.state = .opened) (hleg : y.leg i = some leg) :
    ∃ best, (e.run inputs).ledger.bestOnLeg leg now = .ok best ∧
      (pricesOf r i (e.emitted inputs)).getLast? = some best.price := by
  obtain ⟨⟨input, maker, price, size, expiresAt, hinput, hcommand, hok, ⟨y₀, leg₀, best₀, hr₀, hleg₀,
    hbest₀⟩, hsurvive⟩, hother⟩ := hlast
  have hn : n < inputs.length := (List.getElem?_eq_some_iff.mp hinput).1
  have hstart : ReachableAt config start e := .new start h
  have hfeed := feed_of_accepted h hpaced hinput hcommand hok hr₀ hleg₀ hbest₀
  obtain ⟨last, hle, hreach⟩ := hpaced.reached hstart hinput
  have hreach₀ : ReachableAt config input.now (e.run (inputs.take (n + 1))) := by
    rw [run_take_succ e hinput]
    exact hreach.step input hle
  have hend : e.run inputs = e.run (inputs.take inputs.length) := by rw [List.take_length]
  have hr' := hr
  rw [hend] at hr'
  obtain ⟨hopened₀, hoffers, hprices⟩ := rests_run hstart hpaced hother hn (Nat.le_refl _)
    (Ledger.market_auctions hr₀) (Ledger.market_auctions hr') hopened
  obtain ⟨a, ha, hlegs⟩ := keepsLegs_run hstart hpaced hn (Nat.le_refl _) r _
    (Ledger.market_auctions hr₀)
  obtain rfl := Option.some.inj ((Ledger.market_auctions hr').symm.trans ha)
  have hspec : leg.spec = leg₀.spec := by
    have hat : (y.legs.map Leg.spec)[i]? = (y₀.legs.map Leg.spec)[i]? := congrArg (·[i]?) hlegs
    rw [List.getElem?_map, List.getElem?_map, show y.legs[i]? = some leg from hleg,
      show y₀.legs[i]? = some leg₀ from hleg₀] at hat
    exact Option.some.inj hat
  have hsame : SameLeg (e.run (inputs.take (n + 1))).ledger (e.run inputs).ledger r i leg₀ leg
      input.now now := by
    refine ⟨fun q o hreq hi => ?_, hspec, (hpaced.now_le hinput).trans hnow, hsurvive⟩
    rw [hend]
    exact hoffers q o hreq hi
  have hfull := hstart.run inputs hpaced
  have hbestOf₀ := hreach₀.sane.bestOf (numbered_of_reachable hreach₀.reachable) hr₀ hopened₀ hleg₀
    input.now
  rw [hbest₀] at hbestOf₀
  obtain ⟨best, hbest, hprice⟩ := hsame.bestPrice hbestOf₀
    (hfull.sane.bestOf (numbered_of_reachable hfull.reachable) hr hopened hleg now)
  refine ⟨best, hbest, ?_⟩
  rw [List.take_length] at hprices
  rw [hprices, hfeed, hprice]

/-- The presentation feed.  For every leg consecutive prices differ and none is above
    the limit; an accepted quote leaves the best price of its leg as the last one; and
    an accept that expects the last prices goes through, while what was live at the
    last quotes is. -/
theorem feed_exact (h : Engine.new config = .ok e)
    (hpaced : Paced (fun _ _ => True) start e inputs) :
    (∀ r i, (pricesOf r i (e.emitted inputs)).IsChain (· ≠ ·)) ∧
    (∀ r i, ∀ price ∈ pricesOf r i (e.emitted inputs), ∃ y leg,
      (e.run inputs).ledger.request r = some y ∧ y.leg i = some leg ∧ price ≤ leg.limit) ∧
    (∀ n input maker r i price size expiresAt y leg best, inputs[n]? = some input →
      input.command = .submitQuote maker r i price size expiresAt →
      ((e.run (inputs.take n)).answer input).1 = .ok () →
      (e.run (inputs.take (n + 1))).ledger.request r = some y → y.leg i = some leg →
      (e.run (inputs.take (n + 1))).ledger.bestOnLeg leg input.now = .ok best →
        (pricesOf r i (e.emitted (inputs.take (n + 1)))).getLast? = some best.price) ∧
    ∀ input r expected y, input.command = .acceptRequest r expected →
      lastInstant start inputs ≤ input.now → (e.run inputs).ledger.request r = some y →
      y.state = .opened → input.now < y.deadline →
      (∀ i < y.nLegs, ∃ n, LastQuote e inputs r i input.now n) → expected.length = y.nLegs →
      (∀ i view, expected[i]? = some view → view.leg = i ∧
        (pricesOf r i (e.emitted inputs)).getLast? = some view.price) →
      y.nLegs * config.maxQuotesPerLeg + 1 ≤ input.capacity →
        ((e.run inputs).answer input).1 = .ok () := by
  refine ⟨fun r i => (displayed_of_new h inputs r i).isChain, fun r i price => le_limit_of_published h,
    fun n input maker r i price size expiresAt y leg best hinput hcommand hok hr hleg hbest =>
      feed_of_accepted h hpaced hinput hcommand hok hr hleg hbest, ?_⟩
  intro input r expected y hcommand hnow hr hopened hlive hquotes hlen hviews hroom
  have hreach := ReachableAt.run inputs (.new start h) hpaced
  have hnot := hreach.accept_error_iff hcommand hnow hr hopened hlive hlen
    (fun j view hview => (hviews j view hview).1) (by rw [hreach.config_eq]; exact hroom)
  cases hanswer : ((e.run inputs).answer input).1 with
  | ok v => rfl
  | error err =>
      obtain ⟨j, ⟨leg, view, hleg, hview, hfails⟩, -⟩ := (hnot err).mp hanswer
      have hj : j < y.nLegs := (List.getElem?_eq_some_iff.mp hleg).1
      obtain ⟨n, hlast⟩ := hquotes j hj
      obtain ⟨best, hbest, hfeed⟩ := hlast.found h hpaced hnow hr hopened hleg
      obtain ⟨-, hprice⟩ := hviews j view hview
      obtain hprice := Option.some.inj (hfeed.symm.trans hprice)
      cases hfails with
      | noQuote herror => cases hbest.symm.trans herror
      | stale hok hdear =>
          obtain rfl := Except.ok.inj (hbest.symm.trans hok)
          omega

/-- The replacement by maker 1 was the last quote of the first leg. -/
theorem lastQuote_crowdedLeg :
    LastQuote ⟨Config.busy, Ledger.new Config.busy, 0⟩ crowdedInputs ⟨0, 0⟩ 0 5 12 := by
  refine ⟨⟨_, 1, 540000, 2, 41, rfl, rfl, by decide +kernel, ⟨_, crowdedLeg, ⟨⟨0, 1⟩, 540000⟩,
    crowded_request, rfl, by decide +kernel⟩, fun q x hq _ => ?_⟩, fun m input hm hinput => ?_⟩
  · have hall : ∀ v ∈ crowded.ledger.quotes.iter, 5 < v.2.expiresAt := by decide +kernel
    have hstored : crowded.ledger.quote q = some x := hq.stored
    exact hall (q, x) (Slab.mem_iter.mpr hstored)
  · rw [List.getElem?_eq_none (show crowdedInputs.length ≤ m from hm)] at hinput
    cases hinput

/-- The second leg heard its last quote one command earlier. -/
theorem lastQuote_crowdedSecond :
    LastQuote ⟨Config.busy, Ledger.new Config.busy, 0⟩ crowdedInputs ⟨0, 0⟩ 1 5 11 := by
  have hstored : (Engine.run ⟨Config.busy, Ledger.new Config.busy, 0⟩
      (crowdedInputs.take 12)).ledger.request ⟨0, 0⟩ =
        some ⟨0, 50, .opened, [⟨0, .yes, 2, 900000, some 2, 3, some 550000⟩, crowdedSecond],
          some ⟨0, 0⟩, none⟩ := by decide +kernel
  refine ⟨⟨_, 2, 500000, 1, 44, rfl, rfl, by decide +kernel, ⟨_, crowdedSecond, ⟨⟨3, 0⟩, 500000⟩,
    hstored, rfl, by decide +kernel⟩, fun q x hq _ => ?_⟩, fun m input hm hinput => ?_⟩
  · have hall : ∀ v ∈ (Engine.run ⟨Config.busy, Ledger.new Config.busy, 0⟩
        (crowdedInputs.take 12)).ledger.quotes.iter, 5 < v.2.expiresAt := by decide +kernel
    have hstored : (Engine.run ⟨Config.busy, Ledger.new Config.busy, 0⟩
        (crowdedInputs.take 12)).ledger.quote q = some x := hq.stored
    exact hall (q, x) (Slab.mem_iter.mpr hstored)
  · obtain rfl | hlater := Nat.eq_or_lt_of_le hm
    · obtain rfl := Option.some.inj hinput
      rintro maker price size expiresAt ⟨⟩
    · rw [List.getElem?_eq_none (show crowdedInputs.length ≤ m from hlater)] at hinput
      cases hinput

/-- An accept that expects the last published price of each leg goes through. -/
theorem feed_exact_crowded : (crowded.answer crowdedAccept).1 = .ok () := by
  have hpaced : Paced (fun _ _ => True) 0 ⟨Config.busy, Ledger.new Config.busy, 0⟩ crowdedInputs := by
    simp [Paced, crowdedInputs]
  refine (feed_exact (show Engine.new Config.busy = .ok _ from rfl) hpaced).2.2.2 _ ⟨0, 0⟩
    [⟨0, 540000⟩, ⟨1, 500000⟩] _ rfl (by decide) crowded_request rfl (by decide) (fun i hi => ?_) rfl
    (fun i view hview => ?_) (by decide)
  · rcases i with _ | _ | i
    · exact ⟨12, lastQuote_crowdedLeg⟩
    · exact ⟨11, lastQuote_crowdedSecond⟩
    · exact absurd hi (by simp [Request.nLegs])
  · rcases i with _ | _ | i
    · obtain rfl := Option.some.inj hview
      exact ⟨rfl, by decide +kernel⟩
    · obtain rfl := Option.some.inj hview
      exact ⟨rfl, by decide +kernel⟩
    · cases hview

end Engine

end RfqSettlement
