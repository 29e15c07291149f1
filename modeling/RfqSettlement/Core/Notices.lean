/-
  RfqSettlement.Core.Notices

  Every maker is told of the end of every quote exactly once.

  `noticesAbout` picks the notices of one quote out of what a run emits.  One input
  leaves a stored quote untold, or takes it off the book with one notice to its
  maker, or takes it off settled and says so of its request (`Fares`); and a handle
  that has left the book is spent (`Slab.Spent`), so a run never meets it again.
-/

import RfqSettlement.Core.Turns
import RfqSettlement.Core.Refusals

namespace RfqSettlement

/-- The notices about `q`. -/
def noticesAbout (q : QuoteIdx) (events : List Event) : List Event :=
  events.filter fun event => decide (event.fate.map Prod.fst = some q)

section About

variable {q : QuoteIdx} {events events' : List Event} {gone : List (QuoteIdx × Offer)}
  {f : QuoteIdx × Offer → Event}

@[simp] theorem noticesAbout_nil : noticesAbout q [] = [] := rfl

theorem noticesAbout_append :
    noticesAbout q (events ++ events') = noticesAbout q events ++ noticesAbout q events' :=
  List.filter_append ..

theorem noticesAbout_mute (h : ∀ event ∈ events, event.Mute) : noticesAbout q events = [] := by
  rw [noticesAbout, List.filter_eq_nil_iff]
  intro event hevent
  simp [(h event hevent).fate]

/-- Events that each notify of another quote. -/
theorem noticesAbout_map_of_not_mem (hf : ∀ v, (f v).fate = some (v.1, v.2.maker))
    (hq : q ∉ gone.map Prod.fst) : noticesAbout q (gone.map f) = [] := by
  rw [noticesAbout, List.filter_eq_nil_iff]
  intro event hevent
  obtain ⟨v, hv, rfl⟩ := List.mem_map.mp hevent
  rw [hf, decide_eq_true_eq, Option.map_some, Option.some.injEq]
  rintro rfl
  exact hq (List.mem_map_of_mem hv)

theorem noticesAbout_map_of_mem (hf : ∀ v, (f v).fate = some (v.1, v.2.maker))
    (hnodup : (gone.map Prod.fst).Nodup) {v : QuoteIdx × Offer} (hv : v ∈ gone) :
    noticesAbout v.1 (gone.map f) = [f v] := by
  induction gone with
  | nil => cases hv
  | cons v' gone ih =>
      rw [List.map_cons, List.nodup_cons] at hnodup
      have hsplit : noticesAbout v.1 ([f v'] ++ gone.map f) =
          noticesAbout v.1 [f v'] ++ noticesAbout v.1 (gone.map f) :=
        noticesAbout_append
      rw [List.map_cons, ← List.singleton_append, hsplit]
      rcases List.mem_cons.mp hv with rfl | hv
      · rw [noticesAbout_map_of_not_mem hf hnodup.1, List.append_nil, noticesAbout,
          List.filter_singleton]
        simp [hf]
      · have hne : v'.1 ≠ v.1 := fun heq => hnodup.1 (heq ▸ List.mem_map_of_mem hv)
        rw [ih hnodup.2 hv, noticesAbout, List.filter_singleton]
        simp [hf, hne]

end About

theorem fate_replacedNotice (v : QuoteIdx × Offer) :
    (Engine.replacedNotice v).fate = some (v.1, v.2.maker) := rfl

theorem fate_failedNotice (v : QuoteIdx × Offer) :
    (Ledger.failedNotice v).fate = some (v.1, v.2.maker) := rfl

namespace Engine

open Ledger (Inherits Writes Won)

variable {e : Engine} {config : Config} {command : Command} {now : Nat} {events : EventBuffer}
  {answer : Answer} {input : Input} {inputs : List Input} {q : QuoteIdx} {o : Offer} {r : ReqIdx}

-- ============================================================================
-- One command
-- ============================================================================

/-- How a stored quote fares under one input that emits `told`. -/
inductive Fares (m' : Market) (told : List Event) (q : QuoteIdx) (o : Offer) : Prop where
  | stays {o' : Offer} (h : m'.offers q = some o') (hmaker : o'.maker = o.maker)
      (huntold : noticesAbout q told = [])
  | leaves {event : Event} (h : m'.offers q = none) (htold : noticesAbout q told = [event])
      (hfate : event.fate = some (q, o.maker))
  | settles {nonce : Nonce} (h : m'.offers q = none) (huntold : noticesAbout q told = [])
      (hconsumed : o.state = .consumed) (hescrowed : .requestEscrowed o.request nonce ∈ told)

/-- What the notices of a command that sheds `gone` come to. -/
theorem fares_of_sheds {m m' : Market} {gone : List (QuoteIdx × Offer)} {won : List QuoteIdx}
    {told tail : List Event} {f : QuoteIdx × Offer → Event} (hsheds : Market.Sheds gone won m m')
    (hf : ∀ v, (f v).fate = some (v.1, v.2.maker)) (htold : told = gone.map f ++ tail)
    (htail : noticesAbout q tail = []) (ho : m.offers q = some o) : Fares m' told q o := by
  rw [htold]
  by_cases hq : q ∈ gone.map Prod.fst
  · obtain ⟨v, hv, rfl⟩ := List.mem_map.mp hq
    obtain rfl := Option.some.inj ((hsheds.stored v hv).symm.trans ho)
    refine .leaves (by rw [hsheds.offers, if_pos hq]) ?_ (hf v)
    rw [noticesAbout_append, htail, List.append_nil, noticesAbout_map_of_mem hf hsheds.nodup hv]
  · have huntold : noticesAbout q (gone.map f ++ tail) = [] := by
      rw [noticesAbout_append, htail, List.append_nil, noticesAbout_map_of_not_mem hf hq]
    by_cases hwon : q ∈ won
    · have hconsumed : m'.offers q = some o.consume := by
        rw [hsheds.offers, if_neg hq, if_pos hwon, ho]
        rfl
      exact .stays hconsumed rfl huntold
    · exact .stays (by rw [hsheds.offers, if_neg hq, if_neg hwon, ho]) rfl huntold

theorem untold_of_sheds {m m' : Market} {gone : List (QuoteIdx × Offer)} {won : List QuoteIdx}
    {tail : List Event} {f : QuoteIdx × Offer → Event} (hsheds : Market.Sheds gone won m m')
    (hf : ∀ v, (f v).fate = some (v.1, v.2.maker)) (htail : noticesAbout q tail = [])
    (ho : m.offers q = none) : noticesAbout q (gone.map f ++ tail) = [] := by
  rw [noticesAbout_append, htail, List.append_nil]
  refine noticesAbout_map_of_not_mem hf fun hq => ?_
  obtain ⟨v, hv, rfl⟩ := List.mem_map.mp hq
  cases (hsheds.stored v hv).symm.trans ho

/-- A command on a drained buffer tells of what it sheds, and of nothing else's end. -/
theorem Turn.told (hturn : Turn e now events command answer) (hdrained : events.events = []) :
    (∀ o, e.market.offers q = some o → Fares answer.2.1.market answer.2.2.events q o) ∧
      (e.market.offers q = none → noticesAbout q answer.2.2.events = []) := by
  cases hturn with
  | idle _ _ _ hoffers hmutters =>
      obtain ⟨tail, htail, hmute⟩ := hmutters
      rw [htail, hdrained, List.nil_append]
      exact ⟨fun o ho => .stays (hoffers ▸ ho) rfl (noticesAbout_mute hmute),
        fun _ => noticesAbout_mute hmute⟩
  | @bid _ _ _ _ _ _ gone fresh _ hbids =>
      obtain ⟨tail, htold, hmute⟩ := hbids.told
      rw [hdrained, List.nil_append] at htold
      have hnodup : (gone.map Prod.fst).Nodup := by
        have hsingle := hbids.single
        match gone, hsingle with
        | [], _ => exact List.nodup_nil
        | [v], _ => exact List.nodup_singleton _
      -- the market between the withdrawal and the new quote
      have hsheds : Market.Sheds gone [] e.market { e.market with
          offers := fun q => if q ∈ gone.map Prod.fst then none else e.market.offers q } :=
        ⟨hnodup, fun v hv => (hbids.stored v hv).1, by simp, by simp⟩
      refine ⟨fun o ho => ?_, fun ho => ?_⟩
      · have hkept : answer.2.1.market.offers q =
            if q ∈ gone.map Prod.fst then none else e.market.offers q := by
          rw [hbids.offers, if_neg]
          intro hfresh
          cases (hbids.unspent q hfresh).1.symm.trans ho
        have hfares := fares_of_sheds hsheds fate_replacedNotice htold (noticesAbout_mute hmute) ho
        cases hfares with
        | stays h hmaker huntold => exact .stays (hkept.trans h) hmaker huntold
        | leaves h htold hfate => exact .leaves (hkept.trans h) htold hfate
        | settles h huntold hconsumed hescrowed =>
            exact .settles (hkept.trans h) huntold hconsumed hescrowed
      · rw [htold]
        exact untold_of_sheds hsheds fate_replacedNotice (noticesAbout_mute hmute) ho
  | @rejected r gone w' hparts hroom hmem =>
      have htold : w'.2.events = gone.map (fun v => v.2.notice now .requestRejected v.1) ++ [] := by
        have hevents := hparts.tells.events (by rw [List.length_map]; exact hroom)
        rwa [hdrained, List.nil_append, ← List.append_nil (gone.map _)] at hevents
      refine ⟨fun o ho => ?_, fun ho => ?_⟩
      · exact fares_of_sheds hparts.sheds (fun v => v.2.fate_notice now _ v.1) htold rfl ho
      · show noticesAbout q w'.2.events = []
        rw [htold]
        exact untold_of_sheds hparts.sheds (fun v => v.2.fate_notice now _ v.1) rfl ho
  | @accepted r expected acc fills gone w₁ w' hchecked haccepted hparts hoffers hintent hroom hmem =>
      have htold : w'.2.events =
          gone.map (fun v => v.2.notice now .outbid v.1) ++ [Ledger.intentOf r acc] := by
        have hevents := hparts.tells.events (by rw [List.length_map]; dsimp only; omega)
        rw [hdrained, List.nil_append] at hevents
        rw [hintent, EventBuffer.push_of_room, hevents]
        rw [hevents, hparts.tells.capacity, List.length_map]
        dsimp only
        omega
      have hintent : noticesAbout q [Ledger.intentOf r acc] = [] := rfl
      refine ⟨fun o ho => ?_, fun ho => ?_⟩
      · exact fares_of_sheds (hparts.sheds.congr hoffers) (fun v => v.2.fate_notice now _ v.1) htold
          hintent ho
      · show noticesAbout q w'.2.events = []
        rw [htold]
        exact untold_of_sheds hparts.sheds (fun v => v.2.fate_notice now _ v.1) hintent ho
  | @escrowed r a nonce gone w' hnonce ha hsettling hvacates htold =>
      rw [hdrained, List.nil_append] at htold
      have huntold : noticesAbout q w'.2.events = [] := by rw [htold]; rfl
      refine ⟨fun o ho => ?_, fun _ => huntold⟩
      by_cases hq : q ∈ gone.map Prod.fst
      · obtain ⟨o', ho', hr, hs⟩ := (hvacates.mem q).mp hq
        obtain rfl := Option.some.inj (ho'.symm.trans ho)
        have hescrowed : .requestEscrowed o'.request nonce ∈ w'.2.events := by
          rw [htold, hr]
          simp
        refine .settles ?_ huntold hs hescrowed
        show w'.1.market.offers q = none
        rw [hvacates.sheds.offers, if_pos hq]
      · have hstays : w'.1.market.offers q = some o := by
          rw [hvacates.sheds.offers, if_neg hq, if_neg (by simp)]
          exact ho
        exact .stays hstays rfl huntold
  | @failed r a nonce gone w' hnonce ha hsettling hvacates htold =>
      rw [hdrained, List.nil_append] at htold
      refine ⟨fun o ho => ?_, fun ho => ?_⟩
      · exact fares_of_sheds hvacates.sheds fate_failedNotice htold rfl ho
      · show noticesAbout q w'.2.events = []
        rw [htold]
        exact untold_of_sheds hvacates.sheds fate_failedNotice rfl ho

-- ============================================================================
-- Handles do not come back
-- ============================================================================

theorem writes_normaliseAll (accounts : List Nat) :
    Writes e.ledger (e.normaliseAll accounts now).ledger := by
  unfold Engine.normaliseAll
  induction accounts generalizing e with
  | nil => exact .refl _
  | cons account accounts ih =>
      have hone : Writes e.ledger (e.normalise account now).ledger := Ledger.writes_releaseExpired
      exact hone.trans ih

theorem Sane.ages_submitQuote {maker i price size expiresAt : Nat} (h : e.Sane) :
    e.ledger.quotes.Ages
      (e.submitQuote maker r i price size expiresAt now events).2.1.ledger.quotes := by
  have hvalid : e.ledger.quotes.Valid := h.healthy.intact.wired.quotes
  rcases h.submitQuote_cases with ⟨err, heq⟩ | ⟨standing, contribution, y, leg, w₁, hc, rfl, hout⟩
  · rw [heq]
    exact .refl hvalid
  have hwithdrawn : e.ledger.quotes.Ages
      (withdrawStanding (e.ledger, events) maker r i standing).1.quotes :=
    (Ledger.writes_withdrawStanding (w := (e.ledger, events))).ages hvalid
  rcases hout with ⟨err, heq⟩ | ⟨q, c, l₂, hopen, heq⟩
  · rw [heq]
    exact hwithdrawn
  · rw [heq]
    obtain ⟨quotes, hins, hrest⟩ := Ledger.openQuoteReserving_writes hopen
    have hinserted := hwithdrawn.valid.ages_insert hins
    have hpublish : (Work.publishSelection (l₂.linkQuote r i q,
        (withdrawStanding (e.ledger, events) maker r i standing).2) r i now).1.quotes =
          (l₂.linkQuote r i q).quotes := by
      unfold Work.publishSelection
      repeat' split
      all_goals rfl
    show e.ledger.quotes.Ages (Work.publishSelection _ _ _ _).1.quotes
    rw [hpublish]
    exact (hwithdrawn.trans hinserted).trans
      ((hrest.trans Ledger.writes_linkQuote).ages hinserted.valid)

theorem Sane.ages_perform (h : e.Sane) :
    e.ledger.quotes.Ages (e.perform command now events).2.1.ledger.quotes := by
  have hvalid : e.ledger.quotes.Valid := h.healthy.intact.wired.quotes
  by_cases hquote : ∃ maker r leg price size expiresAt,
      command = .submitQuote maker r leg price size expiresAt
  · obtain ⟨maker, r, leg, price, size, expiresAt, rfl⟩ := hquote
    exact h.ages_submitQuote
  by_cases hrequest : ∃ requester deadline legs, command = .submitRequest requester deadline legs
  · obtain ⟨requester, deadline, legs, rfl⟩ := hrequest
    rw [Engine.perform]
    rcases h.submitRequest_cases with ⟨err, heq⟩ | ⟨total, r, c, l₂, hopen, heq⟩
    · rw [heq]
      exact .refl hvalid
    · rw [heq]
      obtain ⟨requests, -, hrest⟩ := Ledger.openRequestReserving_writes hopen
      exact hrest.ages hvalid
  · refine (writes_perform (fun maker r leg price size expiresAt heq => ?_)
      fun requester deadline legs heq => ?_).ages hvalid
    · exact hquote ⟨maker, r, leg, price, size, expiresAt, heq⟩
    · exact hrequest ⟨requester, deadline, legs, heq⟩

theorem Sane.ages_step (h : e.Sane) (input : Input) :
    e.ledger.quotes.Ages (e.step input).ledger.quotes := by
  have hn := h.normalised input.command input.now
  exact ((writes_normaliseAll _).ages h.healthy.intact.wired.quotes).trans hn.sane.ages_perform

theorem ReachableAt.turn (h : ReachableAt config now e) (input : Input) :
    ∃ n, Normalised input.now e n ∧
      Turn n input.now (.withCapacity input.capacity) input.command (e.answer input) := by
  have hn := h.sane.normalised input.command input.now
  exact ⟨_, hn, hn.sane.turn input.command input.now (.withCapacity input.capacity)
    (hn.placed h.placed)⟩

/-- One input. -/
theorem ReachableAt.told (h : ReachableAt config now e) (input : Input) (q : QuoteIdx) :
    (∀ o, e.market.offers q = some o → Fares (e.step input).market (e.emits input) q o) ∧
      (e.market.offers q = none → noticesAbout q (e.emits input) = []) := by
  obtain ⟨n, hn, hturn⟩ := h.turn input
  rw [← hn.offers]
  exact hturn.told rfl

-- ============================================================================
-- Runs
-- ============================================================================

theorem trace_append (inputs' : List Input) :
    e.trace (inputs ++ inputs') = e.trace inputs ++ (e.run inputs).trace inputs' := by
  induction inputs generalizing e with
  | nil => rfl
  | cons input inputs ih =>
      rw [List.cons_append, trace, ih]
      rfl

theorem emitted_take_succ {n : Nat} (hinput : inputs[n]? = some input) :
    e.emitted (inputs.take (n + 1)) =
      e.emitted (inputs.take n) ++ (e.run (inputs.take n)).emits input := by
  rw [emitted, List.take_add_one, hinput, Option.toList_some, trace_append, List.flatMap_append]
  simp [trace, emitted]

/-- The engines of a paced run, by position. -/
theorem Paced.reached {ok : Engine → Input → Prop} {n : Nat} (hpaced : Paced ok now e inputs)
    (h : ReachableAt config now e) (hinput : inputs[n]? = some input) :
    ∃ last, last ≤ input.now ∧ ReachableAt config last (e.run (inputs.take n)) := by
  obtain ⟨last, hlast, hreach, -⟩ := hpaced.trace (x := (e.run (inputs.take n), input)) h
    (trace_getElem.mpr ⟨hinput, rfl⟩)
  exact ⟨last, hlast, hreach⟩

variable {n k : Nat}

/-- A handle that is not spent has not been told of. -/
theorem untold_of_unspent (h : ReachableAt config now e) (hpaced : Paced (fun _ _ => True) now e inputs)
    (hn : n ≤ inputs.length) (hspent : ¬ (e.run (inputs.take n)).ledger.quotes.Spent q) :
    noticesAbout q (e.emitted (inputs.take n)) = [] := by
  induction n with
  | zero => rfl
  | succ n ih =>
      have hinput : inputs[n]? = some inputs[n] := List.getElem?_eq_getElem hn
      obtain ⟨last, -, hreach⟩ := hpaced.reached h hinput
      rw [run_take_succ e hinput] at hspent
      have hages := hreach.sane.ages_step inputs[n]
      have huntold := ih (by omega) fun hearlier => hspent (hages.spent q hearlier)
      obtain ⟨hfares, habsent⟩ := hreach.told inputs[n] q
      rw [emitted_take_succ hinput, noticesAbout_append, huntold, List.nil_append]
      cases ho : (e.run (inputs.take n)).market.offers q with
      | none => exact habsent ho
      | some o =>
          obtain ⟨x, hx, -⟩ := Ledger.quote_of_market ho
          have hstored : ((e.run (inputs.take n)).step inputs[n]).market.offers q ≠ none := by
            rcases hages.kept q x hx with ⟨x', hx'⟩ | hgone
            · rw [Engine.market, Ledger.market_offers hx']
              simp
            · exact absurd hgone hspent
          cases hfares o ho with
          | stays _ _ huntold => exact huntold
          | leaves hgone _ _ => exact absurd hgone hstored
          | settles hgone _ _ _ => exact absurd hgone hstored

/-- What the first `n` inputs of a run have said of the end of a quote of `maker`: its one
    notice, or that its request was escrowed, at the input that closed it. -/
inductive Ended (e : Engine) (inputs : List Input) (n : Nat) (q : QuoteIdx) (maker : Nat) : Prop where
  | told {event : Event} (htold : noticesAbout q (e.emitted (inputs.take n)) = [event])
      (hfate : event.fate = some (q, maker))
  | settled {j : Nat} {z : Engine × Input} {x : Quote} {nonce : Nonce}
      (huntold : noticesAbout q (e.emitted (inputs.take n)) = []) (hj : j < n)
      (hz : (e.trace inputs)[j]? = some z) (hx : z.1.ledger.quote q = some x)
      (hconsumed : x.state = .consumed) (hescrowed : .requestEscrowed x.request nonce ∈ z.1.emits z.2)

/-- Nothing more is said of a quote that has left the book. -/
theorem Ended.succ {maker : Nat} (h : Ended e inputs n q maker) (hinput : inputs[n]? = some input)
    (huntold : noticesAbout q ((e.run (inputs.take n)).emits input) = []) :
    Ended e inputs (n + 1) q maker := by
  have hsame : noticesAbout q (e.emitted (inputs.take (n + 1))) =
      noticesAbout q (e.emitted (inputs.take n)) := by
    rw [emitted_take_succ hinput, noticesAbout_append, huntold, List.append_nil]
  cases h with
  | told htold hfate => exact .told (hsame.trans htold) hfate
  | settled huntold hj hz hx hconsumed hescrowed =>
      exact .settled (hsame.trans huntold) (Nat.lt_succ_of_lt hj) hz hx hconsumed hescrowed

/-- A quote once stored is stored still, or has ended. -/
theorem stored_or_ended (h : ReachableAt config now e) (hpaced : Paced (fun _ _ => True) now e inputs)
    (hk : k ≤ n) (hn : n ≤ inputs.length) (ho : (e.run (inputs.take k)).market.offers q = some o) :
    (∃ o', (e.run (inputs.take n)).market.offers q = some o' ∧ o'.maker = o.maker) ∨
      (e.run (inputs.take n)).ledger.quotes.Spent q ∧ Ended e inputs n q o.maker := by
  induction n, hk using Nat.le_induction with
  | base => exact .inl ⟨o, ho, rfl⟩
  | succ n hk ih =>
      have hinput : inputs[n]? = some inputs[n] := List.getElem?_eq_getElem hn
      obtain ⟨last, -, hreach⟩ := hpaced.reached h hinput
      have hages := hreach.sane.ages_step inputs[n]
      obtain ⟨hfares, habsent⟩ := hreach.told inputs[n] q
      rw [run_take_succ e hinput]
      rcases ih (by omega) with ⟨o', ho', hmaker⟩ | ⟨hspent, hended⟩
      · obtain ⟨x, hx, rfl⟩ := Ledger.quote_of_market ho'
        have huntold : noticesAbout q (e.emitted (inputs.take n)) = [] := by
          refine untold_of_unspent h hpaced (by omega) fun hspent => ?_
          cases hspent.get.symm.trans hx
        have hspent : ((e.run (inputs.take n)).step inputs[n]).market.offers q = none →
            ((e.run (inputs.take n)).step inputs[n]).ledger.quotes.Spent q := by
          intro hgone
          rcases hages.kept q x hx with ⟨x', hx'⟩ | hspent
          · cases hgone.symm.trans (Ledger.market_offers hx')
          · exact hspent
        cases hfares x.offer ho' with
        | stays hstays hsame _ => exact .inl ⟨_, hstays, hsame.trans hmaker⟩
        | leaves hgone htold hfate =>
            refine .inr ⟨hspent hgone, .told ?_ (hmaker ▸ hfate)⟩
            rw [emitted_take_succ hinput, noticesAbout_append, huntold, List.nil_append, htold]
        | settles hgone hsilent hconsumed hescrowed =>
            have hz : (e.trace inputs)[n]? = some (e.run (inputs.take n), inputs[n]) :=
              trace_getElem.mpr ⟨hinput, rfl⟩
            refine .inr ⟨hspent hgone, .settled ?_ (Nat.lt_succ_self n) hz hx hconsumed hescrowed⟩
            rw [emitted_take_succ hinput, noticesAbout_append, huntold, List.nil_append, hsilent]
      · refine .inr ⟨hages.spent q hspent, hended.succ hinput (habsent ?_)⟩
        cases ho' : (e.run (inputs.take n)).market.offers q with
        | none => rfl
        | some o' =>
            obtain ⟨x, hx, -⟩ := Ledger.quote_of_market ho'
            cases hspent.get.symm.trans hx

-- ============================================================================
-- Who is told at one command
-- ============================================================================

/-- What `told` says of the quotes stored for `r`: `notice` of each one that is not
    `kept`, and of no other. -/
structure Notifies (e : Engine) (r : ReqIdx) (kept : QuoteIdx → Prop)
    (notice : QuoteIdx → Quote → Event) (told : List Event) : Prop where
  lost : ∀ q x, e.ledger.quote q = some x → x.request = r → ¬ kept q →
    noticesAbout q told = [notice q x]
  others : ∀ q, (∀ x, e.ledger.quote q = some x → x.request = r → kept q) →
    noticesAbout q told = []

theorem notifies_of_sheds (tail : List Event) {m' : Market} {gone : List (QuoteIdx × Offer)}
    {won : List QuoteIdx} {told : List Event} {f : QuoteIdx × Offer → Event} {kept : QuoteIdx → Prop}
    {notice : QuoteIdx → Quote → Event} (hsheds : Market.Sheds gone won e.market m')
    (hf : ∀ v, (f v).fate = some (v.1, v.2.maker)) (htold : told = gone.map f ++ tail)
    (htail : ∀ q, noticesAbout q tail = []) (hnotice : ∀ q x, f (q, x.offer) = notice q x)
    (hmem : ∀ q, q ∈ gone.map Prod.fst ↔
      (∃ o, e.market.offers q = some o ∧ o.request = r) ∧ ¬ kept q) :
    Notifies e r kept notice told where
  lost q x hx hr hlost := by
    have ho : e.market.offers q = some x.offer := Ledger.market_offers hx
    obtain ⟨v, hv, rfl⟩ := List.mem_map.mp ((hmem q).mpr ⟨⟨_, ho, hr⟩, hlost⟩)
    have hoffer : v.2 = x.offer := Option.some.inj ((hsheds.stored v hv).symm.trans ho)
    rw [htold, noticesAbout_append, htail, List.append_nil,
      noticesAbout_map_of_mem hf hsheds.nodup hv, ← hnotice, ← hoffer]
  others q hkept := by
    rw [htold, noticesAbout_append, htail, List.append_nil, noticesAbout_map_of_not_mem hf]
    intro hq
    obtain ⟨⟨o, ho, hr⟩, hlost⟩ := (hmem q).mp hq
    obtain ⟨x, hx, rfl⟩ := Ledger.quote_of_market ho
    exact hlost (hkept x hx hr)

/-- The notice of a quote that leaves an open request at `now`. -/
def closingNotice (now : Nat) (reason : QuoteRejectReason) (q : QuoteIdx) (x : Quote) : Event :=
  if x.isLiveAt now then .quoteRejected q x.maker reason else .quoteExpired q x.maker

theorem notice_offer {reason : QuoteRejectReason} (now : Nat) (q : QuoteIdx) (x : Quote) :
    x.offer.notice now reason q = closingNotice now reason q x := x.notice_offer now reason q

/-- Reclaiming claims changes no notice. -/
theorem Notifies.of_normalised {n : Engine} {kept kept' : QuoteIdx → Prop}
    {notice : QuoteIdx → Quote → Event} {told : List Event} (h : Notifies n r kept notice told)
    (hn : Normalised now e n) (hnotice : ∀ q x x', x.offer = x'.offer → notice q x = notice q x')
    (hkept : ∀ q, kept q ↔ kept' q) : Notifies e r kept' notice told where
  lost q x hx hr hlost := by
    have ho : n.market.offers q = some x.offer := by
      rw [hn.offers]
      exact Ledger.market_offers hx
    obtain ⟨x', hx', hoffer⟩ := Ledger.quote_of_market ho
    have hr' : x'.request = r := (congrArg Offer.request hoffer).trans hr
    rw [h.lost q x' hx' hr' fun hk => hlost ((hkept q).mp hk), hnotice q x' x hoffer]
  others q hall := by
    refine h.others q fun x hx hr => (hkept q).mpr ?_
    have ho : e.market.offers q = some x.offer := by
      rw [← hn.offers]
      exact Ledger.market_offers hx
    obtain ⟨x', hx', hoffer⟩ := Ledger.quote_of_market ho
    exact hall x' hx' ((congrArg Offer.request hoffer).trans hr)

theorem closingNotice_congr {reason : QuoteRejectReason} (q : QuoteIdx) (x x' : Quote)
    (h : x.offer = x'.offer) : closingNotice now reason q x = closingNotice now reason q x' := by
  rw [← notice_offer, ← notice_offer, h]

/-- A reject that goes through. -/
theorem Turn.notifies_reject (hturn : Turn e now events (.rejectRequest r) answer)
    (hdrained : events.events = []) (hok : answer.1 = .ok ()) :
    Notifies e r (fun _ => False) (closingNotice now .requestRejected) answer.2.2.events := by
  cases hturn with
  | idle hends => exact absurd trivial (hends hok)
  | @rejected _ gone w' hparts hroom hmem =>
      have htold := hparts.tells.events (by rw [List.length_map]; exact hroom)
      rw [hdrained, List.nil_append] at htold
      refine notifies_of_sheds [] hparts.sheds (fun v => v.2.fate_notice now _ v.1) ?_
        (fun _ => rfl) (fun q x => notice_offer now q x) fun q => ?_
      · rw [List.append_nil]
        exact htold
      · rw [hmem q]
        simp

/-- An accept that goes through: the quotes it consumes are its winners. -/
theorem Turn.notifies_accept {expected : List ExpectedFill} (h : e.Sane)
    (hturn : Turn e now events (.acceptRequest r expected) answer)
    (hdrained : events.events = []) (hok : answer.1 = .ok ()) :
    Notifies e r (fun q => ∃ x, answer.2.1.ledger.quote q = some x ∧ x.state = .consumed)
      (closingNotice now .outbid) answer.2.2.events := by
  cases hturn with
  | idle hends => exact absurd trivial (hends hok)
  | @accepted _ _ acc fills gone w₁ w' hchecked haccepted hparts hoffers hintent hroom hmem =>
      have htold := hparts.tells.events (by rw [List.length_map]; dsimp only; omega)
      rw [hdrained, List.nil_append] at htold
      refine notifies_of_sheds [Ledger.intentOf r acc] hparts.sheds
        (fun v => v.2.fate_notice now _ v.1) ?_ (fun _ => rfl) (fun q x => notice_offer now q x)
        fun q => ?_
      · show w'.2.events = _
        rw [hintent, EventBuffer.push_of_room, htold]
        rw [htold, hparts.tells.capacity, List.length_map]
        dsimp only
        omega
      rw [hmem q]
      refine and_congr_right fun ⟨o, ho, hr⟩ => not_congr ?_
      have ho : e.ledger.market.offers q = some o := ho
      have hactive := h.healthy.active_of_opened (Ledger.market_auctions hchecked.record)
        hchecked.opened ho hr
      have hafter : w'.1.market.offers q = if q ∈ gone.map Prod.fst then none
          else if q ∈ fills.map Fill.quote then some o.consume else some o := by
        rw [hoffers, hparts.sheds.offers]
        dsimp only
        rw [ho, Option.map_some]
      constructor
      · intro hwon
        have hstays : q ∉ gone.map Prod.fst := fun hq => ((hmem q).mp hq).2 hwon
        rw [if_neg hstays, if_pos hwon] at hafter
        obtain ⟨x, hx, hoffer⟩ := Ledger.quote_of_market hafter
        exact ⟨x, hx, congrArg Offer.state hoffer⟩
      · rintro ⟨x, hx, hconsumed⟩
        have hx : w'.1.market.offers q = some x.offer := Ledger.market_offers hx
        by_contra hlost
        rw [hafter, if_neg hlost] at hx
        split at hx
        · cases hx
        · rw [Option.some.inj hx] at hactive
          cases hactive.symm.trans hconsumed

/-- A failed settlement: the winners are the consumed quotes. -/
theorem Turn.notifies_reverted {nonce : Nonce}
    (hturn : Turn e now events (.pollSettlement nonce .reverted) answer)
    (hdrained : events.events = []) (hok : answer.1 = .ok ()) (hnonce : Nonce.of r = nonce) :
    Notifies e r (fun q => ∀ x, e.ledger.quote q = some x → x.state ≠ .consumed)
      (fun q x => .quoteRejected q x.maker .settlementFailed) answer.2.2.events := by
  cases hturn with
  | idle hends => exact absurd rfl (hends hok)
  | @failed r' a _ gone w' hnonce' ha hsettling hvacates htold =>
      obtain rfl := Nonce.of_injective (hnonce.trans hnonce'.symm)
      rw [hdrained, List.nil_append] at htold
      refine notifies_of_sheds _ hvacates.sheds fate_failedNotice htold (fun _ => rfl)
        (fun q x => rfl) fun q => ?_
      rw [hvacates.mem q]
      constructor
      · rintro ⟨o, ho, hr, hs⟩
        obtain ⟨x, hx, rfl⟩ := Ledger.quote_of_market ho
        exact ⟨⟨_, ho, hr⟩, fun hactive => hactive x hx hs⟩
      · rintro ⟨⟨o, ho, hr⟩, hconsumed⟩
        obtain ⟨x, hx, rfl⟩ := Ledger.quote_of_market ho
        refine ⟨_, ho, hr, ?_⟩
        by_contra hs
        refine hconsumed fun x' hx' => ?_
        obtain rfl := Option.some.inj (hx.symm.trans hx')
        exact hs

-- ============================================================================
-- The fate of every quote
-- ============================================================================

/-- `input` brings the quote `q` of `maker`. -/
def Admits (e : Engine) (input : Input) (q : QuoteIdx) (maker : Nat) : Prop :=
  (∃ r leg price size expiresAt, input.command = .submitQuote maker r leg price size expiresAt) ∧
    (e.answer input).1 = .ok () ∧ e.ledger.quote q = none ∧
      ((e.step input).ledger.quote q).isSome = true

theorem ReachableAt.admits {maker : Nat} (h : ReachableAt config now e)
    (hadmits : Admits e input q maker) :
    ∃ o, (e.step input).market.offers q = some o ∧ o.maker = maker := by
  obtain ⟨⟨r, leg, price, size, expiresAt, hcommand⟩, hok, hnone, hsome⟩ := hadmits
  obtain ⟨x, hx⟩ := Option.isSome_iff_exists.mp hsome
  have ho : (e.answer input).2.1.market.offers q = some x.offer := Ledger.market_offers hx
  refine ⟨_, ho, ?_⟩
  obtain ⟨n, hn, hturn⟩ := h.turn input
  have hbefore : n.market.offers q = none := by
    rw [hn.offers]
    exact congrArg (Option.map Quote.offer) hnone
  rw [hcommand] at hturn
  generalize e.answer input = answer at hturn ho
  cases hturn with
  | idle _ _ _ hoffers _ => cases ho.symm.trans ((congrFun hoffers q).trans hbefore)
  | bid hbids =>
      rw [hbids.offers, hbefore, ite_self] at ho
      split at ho
      · exact congrArg Offer.maker (Option.some.inj ho).symm
      · cases ho

/-- An accept, a reject or a failed settlement notifies of exactly the quotes it ends. -/
structure TellsLosers (e : Engine) (input : Input) : Prop where
  accept : ∀ r expected, input.command = .acceptRequest r expected →
    Notifies e r (fun q => ∃ x, (e.step input).ledger.quote q = some x ∧ x.state = .consumed)
      (closingNotice input.now .outbid) (e.emits input)
  reject : ∀ r, input.command = .rejectRequest r →
    Notifies e r (fun _ => False) (closingNotice input.now .requestRejected) (e.emits input)
  reverted : ∀ r, input.command = .pollSettlement (Nonce.of r) .reverted →
    Notifies e r (fun q => ∀ x, e.ledger.quote q = some x → x.state ≠ .consumed)
      (fun q x => .quoteRejected q x.maker .settlementFailed) (e.emits input)

theorem ReachableAt.tellsLosers (h : ReachableAt config now e) (hok : (e.answer input).1 = .ok ()) :
    TellsLosers e input := by
  obtain ⟨n, hn, hturn⟩ := h.turn input
  refine ⟨fun r expected hcommand => ?_, fun r hcommand => ?_, fun r hcommand => ?_⟩
  · rw [hcommand] at hturn
    exact (hturn.notifies_accept hn.sane rfl hok).of_normalised hn closingNotice_congr fun _ => .rfl
  · rw [hcommand] at hturn
    exact (hturn.notifies_reject rfl hok).of_normalised hn closingNotice_congr fun _ => .rfl
  · rw [hcommand] at hturn
    refine (hturn.notifies_reverted rfl hok rfl).of_normalised hn (fun q x x' hoffer => ?_)
      fun q => ?_
    · have hmaker : x.maker = x'.maker := congrArg Offer.maker hoffer
      rw [hmaker]
    · have hstates : (n.ledger.quote q).map Quote.state = (e.ledger.quote q).map Quote.state := by
        have hoffers := congrArg (Option.map Offer.state) (congrFun hn.offers q)
        have hview : ∀ l : Ledger, (l.market.offers q).map Offer.state =
            (l.quote q).map Quote.state := fun l => Option.map_map ..
        exact (hview _).symm.trans (hoffers.trans (hview _))
      have hread : ∀ l : Ledger, (∀ x, l.quote q = some x → x.state ≠ .consumed) ↔
          (l.quote q).map Quote.state ≠ some .consumed := by
        intro l
        cases l.quote q <;> simp
      rw [hread, hread, hstates]

/-- Over a run, every admitted quote that has left the book has had its one notice, or was
    consumed and its request escrowed; a stored one has had none; and every accept, reject
    or failed settlement that went through notified of exactly what it ended. -/
theorem quotes_told_once (h : Engine.new config = .ok e)
    (hpaced : Paced (fun _ _ => True) 0 e inputs) :
    (∀ (k : Nat) (z : Engine × Input) (q : QuoteIdx) (maker n : Nat),
      (e.trace inputs)[k]? = some z → Admits z.1 z.2 q maker → k < n → n ≤ inputs.length →
        (e.run (inputs.take n)).ledger.quote q = none → Ended e inputs n q maker) ∧
    (∀ (q : QuoteIdx) (n : Nat), n ≤ inputs.length →
      ((e.run (inputs.take n)).ledger.quote q).isSome = true →
        noticesAbout q (e.emitted (inputs.take n)) = []) ∧
    ∀ (k : Nat) (z : Engine × Input), (e.trace inputs)[k]? = some z →
      (z.1.answer z.2).1 = .ok () → TellsLosers z.1 z.2 := by
  have hreach : ReachableAt config 0 e := .new 0 h
  refine ⟨fun k z q maker n hz hadmits hk hn hgone => ?_, fun q n hn hsome => ?_,
    fun k z hz hok => ?_⟩
  · obtain ⟨last, -, hz₁, -⟩ := hpaced.trace hreach hz
    obtain ⟨o, ho, rfl⟩ := hz₁.admits hadmits
    obtain ⟨hinput, hrun⟩ := trace_getElem.mp hz
    have ho : (e.run (inputs.take (k + 1))).market.offers q = some o := by
      rw [run_take_succ e hinput, ← hrun]
      exact ho
    rcases stored_or_ended hreach hpaced hk hn ho with ⟨o', ho', -⟩ | ⟨-, hended⟩
    · obtain ⟨x, hx, -⟩ := Ledger.quote_of_market ho'
      cases hgone.symm.trans hx
    · exact hended
  · refine untold_of_unspent hreach hpaced hn fun hspent => ?_
    have hnone : (e.run (inputs.take n)).ledger.quote q = none := hspent.get
    rw [hnone] at hsome
    cases hsome
  · obtain ⟨last, -, hz₁, -⟩ := hpaced.trace hreach hz
    exact hz₁.tellsLosers hok

/-- The standing venue, its request rejected. -/
def dismissed : List Input := standingInputs ++ [⟨.rejectRequest ⟨0, 0⟩, 3, 8⟩]

theorem paced_dismissed : Paced (fun _ _ => True) 0 opening dismissed := by
  simp [Paced, dismissed, standingInputs]

theorem quotes_told_once_dismissed : Ended opening dismissed 6 ⟨0, 0⟩ 1 ∧
    noticesAbout ⟨0, 0⟩ (opening.emitted (dismissed.take 5)) = [] := by
  have hnew : Engine.new Config.small = .ok opening := rfl
  have htold := quotes_told_once hnew paced_dismissed
  have hadmitted : (opening.trace dismissed)[4]? =
      some (opening.run (dismissed.take 4), ⟨.submitQuote 1 ⟨0, 0⟩ 0 600000 2 40, 2, 8⟩) :=
    trace_getElem.mpr ⟨rfl, rfl⟩
  exact ⟨htold.1 4 _ ⟨0, 0⟩ 1 6 hadmitted ⟨⟨_, _, _, _, _, rfl⟩, by decide +kernel,
      by decide +kernel, by decide +kernel⟩ (by decide) (by decide) (by decide +kernel),
    htold.2.1 ⟨0, 0⟩ 5 (by decide) (by decide +kernel)⟩

end Engine

end RfqSettlement
