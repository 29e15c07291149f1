/-
  RfqSettlement.Core.Publication

  The feed of best prices.

  A leg keeps the price it published last, and `publish_selection` compares the best
  quote against that alone.  `Displayed` says that what a leg keeps is the last price
  the events of the run carry for it; every input leaves it so (`Shows`), and an
  accepted quote leaves it at the best price of the leg.
-/

import RfqSettlement.Core.Notices
import RfqSettlement.Core.BestExecution
import RfqSettlement.Core.Telling

namespace RfqSettlement

-- ============================================================================
-- Prices among events
-- ============================================================================

/-- The leg and the price an event publishes. -/
def Event.publishes : Event → Option ((ReqIdx × Nat) × Nat)
  | .bestSelectionChanged r leg price => some ((r, leg), price)
  | _ => none

/-- The prices published for leg `i` of `r`, in order. -/
def pricesOf (r : ReqIdx) (i : Nat) (events : List Event) : List Nat :=
  (events.filterMap Event.publishes).filterMap fun v => if v.1 = (r, i) then some v.2 else none

section Prices

variable {r : ReqIdx} {i : Nat} {events events' : List Event}

@[simp] theorem pricesOf_nil : pricesOf r i [] = [] := rfl

theorem pricesOf_append :
    pricesOf r i (events ++ events') = pricesOf r i events ++ pricesOf r i events' := by
  rw [pricesOf, List.filterMap_append, List.filterMap_append]
  rfl

theorem pricesOf_bestSelectionChanged {r' : ReqIdx} {i' price : Nat} :
    pricesOf r i [.bestSelectionChanged r' i' price] = if (r', i') = (r, i) then [price] else [] := by
  rw [pricesOf]
  simp only [List.filterMap_cons, Event.publishes, List.filterMap_nil]
  split <;> simp_all

end Prices

namespace EventBuffer

variable {b b' : EventBuffer}

/-- The same prices are published. -/
def SamePrices (b b' : EventBuffer) : Prop := ∀ r i, pricesOf r i b'.events = pricesOf r i b.events

theorem SamePrices.refl (b : EventBuffer) : SamePrices b b := fun _ _ => rfl

/-- Events that publish nothing. -/
theorem Adds.samePrices {Q : Event → Prop} (h : Adds Q b b')
    (hQ : ∀ event, Q event → event.publishes = none) : SamePrices b b' := by
  obtain ⟨new, heq, hnew⟩ := h
  intro r i
  have hnone : new.filterMap Event.publishes = [] :=
    List.filterMap_eq_nil_iff.mpr fun event hevent => hQ event (hnew event hevent)
  rw [heq, pricesOf_append, pricesOf, pricesOf, hnone, List.filterMap_nil, List.append_nil]

end EventBuffer

open EventBuffer (SamePrices)

-- ============================================================================
-- Commands that publish nothing
-- ============================================================================

theorem Event.publishes_of_notice {event : Event} (h : Notice event) : event.publishes = none := by
  cases event with
  | bestSelectionChanged => cases h
  | _ => rfl

namespace Engine

variable {e : Engine} {command : Command} {now : Nat} {events : EventBuffer}

/-- No other command than a quote publishes. -/
theorem samePrices_perform (hquote : ∀ maker r leg price size expiresAt,
      command ≠ .submitQuote maker r leg price size expiresAt) :
    SamePrices events (e.perform command now events).2.2 := by
  refine pushes_perform.samePrices fun event hpushed => ?_
  cases event with
  | bestSelectionChanged =>
      cases command with
      | submitQuote => exact absurd rfl (hquote _ _ _ _ _ _)
      | reportOracleStatus contract status => cases status <;> cases hpushed
      | _ => cases hpushed
  | _ => rfl

end Engine

-- ============================================================================
-- What a leg keeps
-- ============================================================================

namespace Ledger

variable {l l' l'' : Ledger} {r : ReqIdx} {i now : Nat} {w : Work} {leg : Leg} {best : Selection}

/-- What leg `i` of `r` published last, and its limit. -/
def shown (l : Ledger) (r : ReqIdx) (i : Nat) : Option (Option Nat × Nat) :=
  (l.legOf r i).map fun leg => (leg.published, leg.limit)

theorem shown_of_leg {y : Request} (hr : l.request r = some y) (hleg : y.leg i = some leg) :
    l.shown r i = some (leg.published, leg.limit) := by
  rw [shown, legOf, hr, Option.bind_some, hleg]
  rfl

/-- The legs of a stored request stay as they were asked for. -/
def KeepsLegs (l l' : Ledger) : Prop :=
  ∀ r a, l.market.auctions r = some a → ∃ a', l'.market.auctions r = some a' ∧ a'.legs = a.legs

theorem keepsLegs_of_steps {scope : Scope} (h : Market.Steps now scope l.market l'.market) :
    KeepsLegs l l' := by
  intro r a ha
  obtain ⟨st, hst, -⟩ := h.auction ha
  exact ⟨_, hst, rfl⟩

/-- No request is new, and none has published anything. -/
def KeepsPublished (l l' : Ledger) : Prop :=
  ∀ r y', l'.request r = some y' → ∃ y, l.request r = some y ∧ y'.published = y.published

/-- What is kept shows what it showed. -/
theorem shown_eq
    (hkeeps : ∀ a, l.market.auctions r = some a → ∃ a', l'.market.auctions r = some a' ∧ a'.legs = a.legs)
    (hpublished : ∀ y', l'.request r = some y' →
      ∃ y, l.request r = some y ∧ y'.published = y.published) (i : Nat) :
    l'.shown r i = l.shown r i := by
  cases hr' : l'.request r with
  | none =>
      cases hr : l.request r with
      | none => simp [Ledger.shown, legOf, hr, hr']
      | some y =>
          obtain ⟨a', ha', -⟩ := hkeeps _ (market_auctions hr)
          obtain ⟨y', hy', -⟩ := request_of_market ha'
          rw [hr'] at hy'
          cases hy'
  | some y' =>
      obtain ⟨y, hy, hpublished⟩ := hpublished y' hr'
      obtain ⟨a', ha', hlegs⟩ := hkeeps _ (market_auctions hy)
      rw [market_auctions hr', Option.some.injEq] at ha'
      subst ha'
      have hspecs : (y'.legs.map Leg.spec)[i]? = (y.legs.map Leg.spec)[i]? := congrArg (·[i]?) hlegs
      have hlast : y'.published[i]? = y.published[i]? := by rw [hpublished]
      simp only [Request.published, List.getElem?_map] at hspecs hlast
      simp only [Ledger.shown, legOf, hr', hy, Option.bind_some, Request.leg]
      cases hleg' : y'.legs[i]? with
      | none =>
          rw [hleg', Option.map_none, eq_comm, Option.map_eq_none_iff] at hspecs
          rw [hspecs]
      | some leg' =>
          rw [hleg', Option.map_some, eq_comm, Option.map_eq_some_iff] at hspecs hlast
          obtain ⟨leg, hleg, hspec⟩ := hspecs
          obtain ⟨leg₁, hleg₁, hpub⟩ := hlast
          rw [hleg, Option.some.injEq] at hleg₁
          subst hleg₁
          have hlimit : leg.limit = leg'.limit := congrArg LegSpec.limit hspec
          rw [hleg, Option.map_some, Option.map_some, hpub, hlimit]

theorem legOf_modifyLeg {f : Leg → Leg} (r' : ReqIdx) (i' : Nat) :
    (l.modifyLeg r i f).legOf r' i' =
      if (r, i) = (r', i') then (l.legOf r i).map f else l.legOf r' i' := by
  have hrequest := request_modifyRequest (l := l) (r := r) (f := fun y => y.modifyLeg i f) r'
  simp only [legOf, modifyLeg, hrequest]
  by_cases hr : r' = r
  · subst hr
    rw [if_pos rfl]
    cases hy : l.request r' with
    | none => simp
    | some y =>
        simp only [Option.map_some, Option.bind_some, Request.leg, Request.modifyLeg,
          List.getElem?_modify, Prod.mk.injEq, true_and]
        by_cases hi : i = i'
        · subst hi
          simp
        · simp [hi]
  · have hne : (r, i) ≠ (r', i') := fun heq => hr (congrArg Prod.fst heq).symm
    rw [if_neg hr, if_neg hne]

/-- The best quote of a leg is found whatever the leg published. -/
theorem bestOnLeg_published {price : Nat} (hquotes : l'.quotes = l.quotes) :
    l'.bestOnLeg { leg with published := some price } now = l.bestOnLeg leg now := by
  have hat : ∀ index, l'.quoteHandleAt index = l.quoteHandleAt index := by
    intro index
    rw [quoteHandleAt, quoteHandleAt, hquotes]
  have hget : ∀ q, l'.quote q = l.quote q := by
    intro q
    rw [quote, quote, hquotes]
  have hwalk : ∀ fuel cursor, l'.walkFrom fuel cursor = l.walkFrom fuel cursor := by
    intro fuel
    induction fuel with
    | zero => intro cursor; cases cursor <;> rfl
    | succ fuel ih =>
        intro cursor
        cases cursor with
        | none => rfl
        | some index => simp only [walkFrom, hat, hget, ih]
  have hleg : l'.walkLeg { leg with published := some price } = l.walkLeg leg := by
    rw [walkLeg, walkLeg, hwalk, hquotes]
  rw [bestOnLeg, bestOnLeg, hleg]
  rfl

/-- What a publication does: nothing, where there is no best quote or its price is the
    one published last; else that price is kept and told. -/
inductive Publishes (r : ReqIdx) (i now : Nat) (w w' : Work) : Prop where
  | silent (h : w' = w)
      (hsame : ∀ leg best, w.1.legOf r i = some leg → w.1.bestOnLeg leg now = .ok best →
        leg.published = some best.price)
  | told {leg : Leg} {best : Selection} (hleg : w.1.legOf r i = some leg)
      (hbest : w.1.bestOnLeg leg now = .ok best) (hnew : leg.published ≠ some best.price)
      (h : w' = (w.1.modifyLeg r i fun leg => { leg with published := some best.price },
        w.2.push (.bestSelectionChanged r i best.price)))

theorem publishes_publishSelection : Publishes r i now w (w.publishSelection r i now) := by
  unfold Work.publishSelection
  split
  next hnone => exact .silent rfl fun leg best hleg => by cases hnone.symm.trans hleg
  next leg hleg =>
  split
  next reason herror =>
    refine .silent rfl fun leg' best hleg' hbest => ?_
    obtain rfl := Option.some.inj (hleg.symm.trans hleg')
    cases herror.symm.trans hbest
  next best hbest =>
  split
  next hpublished =>
    refine .silent rfl fun leg' best' hleg' hbest' => ?_
    obtain rfl := Option.some.inj (hleg.symm.trans hleg')
    obtain rfl := Except.ok.inj (hbest.symm.trans hbest')
    exact hpublished
  next hnew => exact .told hleg hbest hnew rfl

/-- Publishing is no move of the market. -/
theorem Publishes.market {w' : Work} (h : Publishes r i now w w') : w'.1.market = w.1.market := by
  cases h with
  | silent h => rw [h]
  | @told leg best _ _ _ h =>
      rw [h]
      have ht : Touches w.1 (w.1.modifyLeg r i fun leg => { leg with published := some best.price }) :=
        touches_modifyLeg fun _ => rfl
      exact ht.market

/-- No best price is above the limit. -/
theorem price_le_of_bestOnLeg (h : l.bestOnLeg leg now = .ok best) : best.price ≤ leg.limit := by
  have hscan : Scanned leg now ([] ++ l.walkLeg leg) _ := scanned_foldl _ scanned_nil
  have hbest := hscan.best
  unfold Ledger.bestOnLeg at h
  dsimp only at h
  split at h
  next b hb =>
    obtain rfl := Except.ok.inj h
    rw [hb] at hbest
    generalize ((l.walkLeg leg).foldl (Scan.visit leg now) {}).bestArrival = arrival at hbest
    cases hbest with
    | chosen hv helig hleast =>
        simp only [Quote.isEligible, Bool.and_eq_true, decide_eq_true_eq] at helig
        exact helig.2
  · cases h

/-- Whatever is published, the feed then shows the best price. -/
theorem Publishes.exact {w' : Work} (h : Publishes r i now w w') {leg' : Leg}
    (hleg' : w'.1.legOf r i = some leg') (hbest : w'.1.bestOnLeg leg' now = .ok best) :
    leg'.published = some best.price := by
  cases h with
  | silent h hsame =>
      subst h
      exact hsame leg' best hleg' hbest
  | @told leg best' hleg hbest' hnew h =>
      subst h
      rw [legOf_modifyLeg, if_pos rfl, hleg, Option.map_some, Option.some.injEq] at hleg'
      subst hleg'
      have hquotes : (w.1.modifyLeg r i fun leg =>
          { leg with published := some best'.price }).quotes = w.1.quotes := rfl
      have hbest := (bestOnLeg_published hquotes).symm.trans hbest
      obtain rfl := Except.ok.inj (hbest'.symm.trans hbest)
      rfl

end Ledger

-- ============================================================================
-- One input
-- ============================================================================

/-- What one input makes of a leg's display, and the prices it publishes for it. -/
inductive Shows (before after : Option (Option Nat × Nat)) : List Nat → Prop where
  | same (h : after = before) : Shows before after []
  | opened {limit : Nat} (hbefore : before = none) (hafter : after = some (none, limit)) :
      Shows before after []
  | published {last : Option Nat} {limit price : Nat} (hbefore : before = some (last, limit))
      (hafter : after = some (some price, limit)) (hnew : last ≠ some price) (hle : price ≤ limit) :
      Shows before after [price]

namespace Engine

open Ledger (Inherits Writes KeepsLegs KeepsPublished Publishes QuoteChecked)

variable {e : Engine} {command : Command} {now maker i price size expiresAt : Nat} {input : Input}
  {events : EventBuffer} {r r' : ReqIdx} {i' : Nat} {stood : Option QuoteIdx}

/-- A replacement leaves room for one event. -/
theorem room_withdrawStanding (hroom : events.headroom 2 = true) :
    (withdrawStanding (e.ledger, events) maker r i stood).2.events.length <
      (withdrawStanding (e.ledger, events) maker r i stood).2.capacity := by
  have hroom : events.events.length + 2 ≤ events.capacity := by
    simpa [EventBuffer.headroom] using hroom
  cases stood with
  | none => show events.events.length < events.capacity; omega
  | some q =>
      show (events.push _).events.length < (events.push _).capacity
      rw [EventBuffer.push_of_room (by omega), List.length_append, List.length_singleton]
      show events.events.length + 1 < events.capacity
      omega

theorem samePrices_withdrawStanding :
    SamePrices events (withdrawStanding (e.ledger, events) maker r i stood).2 :=
  (notices_withdrawStanding (w := (e.ledger, events))).samePrices fun _ =>
    Event.publishes_of_notice

/-- A quote that is admitted publishes on its own leg, if anywhere. -/
theorem Sane.submitQuote_publishes (h : e.Sane) :
    (KeepsPublished e.ledger (e.submitQuote maker r i price size expiresAt now events).2.1.ledger ∧
        SamePrices events (e.submitQuote maker r i price size expiresAt now events).2.2 ∧
        ∃ err, (e.submitQuote maker r i price size expiresAt now events).1 = .error err) ∨
      ∃ w w', KeepsPublished e.ledger w.1 ∧ SamePrices events w.2 ∧ w.2.events.length < w.2.capacity ∧ Publishes r i now w w' ∧
        (e.submitQuote maker r i price size expiresAt now events).2.1.ledger = w'.1 ∧
        (e.submitQuote maker r i price size expiresAt now events).2.2 = w'.2 ∧
        (e.submitQuote maker r i price size expiresAt now events).1 = .ok () := by
  rcases h.submitQuote_cases (r := r) (i := i) with ⟨err, heq⟩ |
    ⟨stood, contribution, y, leg, w₁, hc, rfl, hout⟩
  · rw [heq]
    exact .inl ⟨(Inherits.refl _).published, .refl _, err, rfl⟩
  have hwithdrawn : Inherits e.ledger (withdrawStanding (e.ledger, events) maker r i stood).1 :=
    (Ledger.writes_withdrawStanding (w := (e.ledger, events))).inherits
  rcases hout with ⟨err, heq⟩ | ⟨q, c, l₂, hopen, heq⟩
  · rw [heq]
    exact .inl ⟨hwithdrawn.published, samePrices_withdrawStanding, _, rfl⟩
  · rw [heq]
    obtain ⟨quotes, hins, hrest⟩ := Ledger.openQuoteReserving_writes hopen
    have hlinked := (hrest.trans (Ledger.writes_linkQuote (r := r) (i := i) (q := q))).inherits
    refine .inr ⟨(l₂.linkQuote r i q, (withdrawStanding (e.ledger, events) maker r i stood).2), _,
      fun r y' hy' => ?_, samePrices_withdrawStanding,
      room_withdrawStanding hc.headroom, Ledger.publishes_publishSelection, rfl, rfl, rfl⟩
    obtain ⟨y₁, hy₁, hsame'⟩ := hlinked.published r y' hy'
    obtain ⟨y, hy, hsame⟩ := hwithdrawn.published r y₁ hy₁
    exact ⟨y, hy, hsame'.trans hsame⟩

/-- What a publication shows, and the prices it tells. -/
theorem shows_of_publishes {w w' : Work} (h : Publishes r i now w w')
    (hroom : w.2.events.length < w.2.capacity) (hsilent : pricesOf r' i' w.2.events = []) :
    Shows (w.1.shown r' i') (w'.1.shown r' i') (pricesOf r' i' w'.2.events) ∧
      ((r, i) ≠ (r', i') → pricesOf r' i' w'.2.events = []) := by
  cases h with
  | silent h =>
      rw [h, hsilent]
      exact ⟨.same rfl, fun _ => rfl⟩
  | @told leg best hleg hbest hnew h =>
      have hprices : pricesOf r' i' w'.2.events = if (r, i) = (r', i') then [best.price] else [] := by
        rw [h, EventBuffer.push_of_room hroom, pricesOf_append, hsilent, List.nil_append,
          pricesOf_bestSelectionChanged]
      have hlegOf : w'.1.legOf r' i' = if (r, i) = (r', i') then
          some { leg with published := some best.price } else w.1.legOf r' i' := by
        rw [h, Ledger.legOf_modifyLeg, hleg]
        rfl
      by_cases heq : (r, i) = (r', i')
      · obtain ⟨rfl, rfl⟩ := Prod.mk.inj heq
        rw [if_pos rfl] at hprices hlegOf
        rw [hprices]
        have hbefore : w.1.shown r i = some (leg.published, leg.limit) := by
          rw [Ledger.shown, hleg, Option.map_some]
        have hafter : w'.1.shown r i = some (some best.price, leg.limit) := by
          rw [Ledger.shown, hlegOf, Option.map_some]
        exact ⟨.published hbefore hafter hnew (Ledger.price_le_of_bestOnLeg hbest),
          fun hne => absurd rfl hne⟩
      · rw [if_neg heq] at hprices hlegOf
        rw [hprices]
        exact ⟨.same (by rw [Ledger.shown, Ledger.shown, hlegOf]), fun _ => rfl⟩

/-- One quote, on a drained buffer. -/
theorem Sane.shows_submitQuote (h : e.Sane) (hdrained : events.events = []) (r' : ReqIdx) (i' : Nat) :
    Shows (e.ledger.shown r' i')
        ((e.submitQuote maker r i price size expiresAt now events).2.1.ledger.shown r' i')
        (pricesOf r' i' (e.submitQuote maker r i price size expiresAt now events).2.2.events) ∧
      ((r, i) ≠ (r', i') →
        pricesOf r' i' (e.submitQuote maker r i price size expiresAt now events).2.2.events = []) := by
  obtain ⟨scope, -, hadv⟩ := h.advances (.submitQuote maker r i price size expiresAt) now events
  have hkeeps := Ledger.keepsLegs_of_steps hadv.steps
  rw [Engine.perform] at hkeeps
  have hnone : pricesOf r' i' events.events = [] := by rw [hdrained]; rfl
  rcases h.submitQuote_publishes with ⟨hpublished, hsame, -⟩ |
    ⟨w, w', hpublished, hsame, hroom, hpub, hledger, hevents, -⟩
  · rw [hsame, hnone, Ledger.shown_eq (hkeeps r') (hpublished r')]
    exact ⟨.same rfl, fun _ => rfl⟩
  · rw [hledger] at hkeeps ⊢
    rw [hevents]
    have hkeeps' : KeepsLegs e.ledger w.1 := fun r a ha => hpub.market ▸ hkeeps r a ha
    rw [← Ledger.shown_eq (hkeeps' r') (hpublished r')]
    exact shows_of_publishes hpub hroom ((hsame r' i').trans hnone)

/-- One request: its legs are on display, with nothing published. -/
theorem Sane.shows_submitRequest {requester deadline : Nat} {specs : List LegSpec} (h : e.Sane)
    (r' : ReqIdx) (i' : Nat) :
    Shows (e.ledger.shown r' i')
      ((e.submitRequest requester deadline specs now events).2.1.ledger.shown r' i') [] := by
  obtain ⟨scope, -, hadv⟩ := h.advances (.submitRequest requester deadline specs) now events
  have hkeeps := Ledger.keepsLegs_of_steps hadv.steps
  rw [Engine.perform] at hkeeps
  rcases h.submitRequest_cases with ⟨err, heq⟩ | ⟨total, r, c, l₂, hopen, heq⟩
  · rw [heq]
    exact .same rfl
  · rw [heq] at hkeeps ⊢
    obtain ⟨requests, hins, hrest⟩ := Ledger.openRequestReserving_writes hopen
    have hpublished := hrest.inherits.published
    obtain ⟨hfresh, hget⟩ := Slab.get_insert hins
    show Shows _ (l₂.shown r' i') []
    by_cases hr : r' = r
    · subst hr
      have hbefore : e.ledger.shown r' i' = none := by
        rw [Ledger.shown, Ledger.legOf, Ledger.request, hfresh]
        rfl
      cases hafter : l₂.legOf r' i' with
      | none => exact .same (by rw [Ledger.shown, hafter, hbefore]; rfl)
      | some leg =>
          obtain ⟨y', hy', hleg⟩ := Option.bind_eq_some_iff.mp hafter
          obtain ⟨y, hy, hnone⟩ := hpublished r' y' hy'
          have hy : requests.get r' = some y := hy
          rw [hget, if_pos rfl, Option.some.injEq] at hy
          subst hy
          have hlast : leg.published ∈ y'.published := List.mem_map_of_mem (List.mem_of_getElem? hleg)
          rw [hnone] at hlast
          have hpub : leg.published = none := by
            simp only [Request.published, Request.new, List.map_map, List.mem_map] at hlast
            obtain ⟨spec, -, hspec⟩ := hlast
            exact hspec.symm
          have hshown : l₂.shown r' i' = some (none, leg.limit) := by
            rw [Ledger.shown, hafter, Option.map_some, hpub]
          exact .opened hbefore hshown
    · refine .same (Ledger.shown_eq (hkeeps r') (fun y' hy' => ?_) i')
      obtain ⟨y, hy, hsame⟩ := hpublished r' y' hy'
      have hy : requests.get r' = some y := hy
      rw [hget, if_neg hr] at hy
      exact ⟨y, hy, hsame⟩

/-- One command, on a drained buffer. -/
theorem Sane.shows_perform (h : e.Sane) (hdrained : events.events = []) (r : ReqIdx) (i : Nat) :
    Shows (e.ledger.shown r i) ((e.perform command now events).2.1.ledger.shown r i)
        (pricesOf r i (e.perform command now events).2.2.events) ∧
      ((∀ maker price size expiresAt, command ≠ .submitQuote maker r i price size expiresAt) →
        pricesOf r i (e.perform command now events).2.2.events = []) := by
  by_cases hquote : ∃ maker r leg price size expiresAt,
      command = .submitQuote maker r leg price size expiresAt
  · obtain ⟨maker, r', i', price, size, expiresAt, rfl⟩ := hquote
    refine ⟨(h.shows_submitQuote hdrained r i).1, fun hother =>
      (h.shows_submitQuote hdrained r i).2 fun heq => ?_⟩
    obtain ⟨rfl, rfl⟩ := Prod.mk.inj heq
    exact hother _ _ _ _ rfl
  have hquote : ∀ maker r leg price size expiresAt,
      command ≠ .submitQuote maker r leg price size expiresAt :=
    fun maker r leg price size expiresAt heq => hquote ⟨maker, r, leg, price, size, expiresAt, heq⟩
  have hsilent : pricesOf r i (e.perform command now events).2.2.events = [] := by
    rw [samePrices_perform hquote, hdrained]
    rfl
  refine ⟨?_, fun _ => hsilent⟩
  rw [hsilent]
  by_cases hrequest : ∃ requester deadline legs, command = .submitRequest requester deadline legs
  · obtain ⟨requester, deadline, legs, rfl⟩ := hrequest
    exact h.shows_submitRequest r i
  · obtain ⟨scope, -, hadv⟩ := h.advances command now events
    have hwrites : Writes e.ledger (e.perform command now events).2.1.ledger :=
      writes_perform hquote fun requester deadline legs heq =>
        hrequest ⟨requester, deadline, legs, heq⟩
    exact .same (Ledger.shown_eq (Ledger.keepsLegs_of_steps hadv.steps r)
      (hwrites.inherits.published r) i)

theorem Sane.shown_normalisedFor (h : e.Sane) (input : Input) (r : ReqIdx) (i : Nat) :
    (e.normalisedFor input).ledger.shown r i = e.ledger.shown r i := by
  have hauctions : (e.normalisedFor input).ledger.market.auctions = e.ledger.market.auctions :=
    (h.normalised input.command input.now).auctions
  exact Ledger.shown_eq (fun a ha => ⟨a, hauctions ▸ ha, rfl⟩)
    ((h.sameRecords_normalisedFor input).inherits.published r) i

/-- One input. -/
theorem Sane.shows (h : e.Sane) (input : Input) (r : ReqIdx) (i : Nat) :
    Shows (e.ledger.shown r i) ((e.step input).ledger.shown r i) (pricesOf r i (e.emits input)) ∧
      ((∀ maker price size expiresAt, input.command ≠ .submitQuote maker r i price size expiresAt) →
        pricesOf r i (e.emits input) = []) := by
  have hn : (e.normalisedFor input).Sane := (h.normalised input.command input.now).sane
  rw [← h.shown_normalisedFor input]
  exact hn.shows_perform rfl r i

end Engine

end RfqSettlement
