/-
  RfqSettlement.Core.LegChains

  The chain of an open leg, and the loops over it.

  `ExactLeg` says of one leg that its chain is exactly the quotes stored for it, and
  that the loops of the source, which carry no bound, end on it: a walk that is let
  run for `quoteCount` steps or more visits the same quotes, and so does the search of
  an unlink, also after claims and states were written (`Healthy.exactLeg`).  A release
  leaves what it has not yet taken off an exact chain again (`Healthy.exactLeg_released`).
-/

import RfqSettlement.Core.Sites
import RfqSettlement.Core.BestExecution

namespace RfqSettlement

/-- Quotes of one leg released one after another, as a release of the leg does. -/
def Work.releaseQuotes (w : Work) (request : ReqIdx) (leg now : Nat) (reason : QuoteRejectReason)
    (gone : List QuoteIdx) : Work :=
  gone.foldl (fun w h => w.releaseQuote request leg now reason h) w

namespace Ledger

open Intrusive (Path)

variable {l l' : Ledger} {q : QuoteIdx} {r : ReqIdx} {i max now : Nat} {leg : Leg} {y : Request}
  {qs : List QuoteIdx} {filled : Option ReqIdx}

-- ============================================================================
-- The loops end
-- ============================================================================

/-- On a chain that ends, the search for a predecessor does not depend on how long it is
    let run. -/
theorem unlinkQuoteFrom_fuel {head : Link} {fuel fuel' : Nat}
    (h : Path Handle.index l.book.nextOf head qs none) (hfuel : qs.length ≤ fuel)
    (hfuel' : qs.length ≤ fuel') :
    l.unlinkQuoteFrom r i q fuel head = l.unlinkQuoteFrom r i q fuel' head := by
  induction qs generalizing head fuel fuel' with
  | nil =>
      obtain rfl : head = none := h
      cases fuel <;> cases fuel' <;> rfl
  | cons p qs ih =>
      obtain ⟨rfl, n, hn, hrest⟩ := h
      obtain ⟨x, hx, rfl⟩ := quote_of_nextOf hn
      simp only [List.length_cons] at hfuel hfuel'
      obtain ⟨fuel, rfl⟩ : ∃ n, fuel = n + 1 := Nat.exists_eq_add_one.mpr (by omega)
      obtain ⟨fuel', rfl⟩ : ∃ n, fuel' = n + 1 := Nat.exists_eq_add_one.mpr (by omega)
      rw [unlinkQuoteFrom, unlinkQuoteFrom, quoteHandleAt_of_quote hx]
      simp only [hx]
      split
      · rfl
      · exact ih hrest (by omega) (by omega)

/-- Two walks of the same quotes read the same records. -/
theorem eq_of_map_fst {vs vs' : List (QuoteIdx × Quote)} (h : vs.map Prod.fst = vs'.map Prod.fst)
    (hvs : ∀ v ∈ vs, l.quote v.1 = some v.2) (hvs' : ∀ v ∈ vs', l.quote v.1 = some v.2) :
    vs = vs' := by
  induction vs generalizing vs' with
  | nil => exact (List.map_eq_nil_iff.mp h.symm).symm
  | cons v vs ih =>
      cases vs' with
      | nil => cases h
      | cons v' vs' =>
          rw [List.map_cons, List.map_cons, List.cons.injEq] at h
          have hv := hvs v List.mem_cons_self
          have hv' := hvs' v' List.mem_cons_self
          rw [h.1, hv', Option.some.injEq] at hv
          rw [Prod.ext h.1 hv.symm, ih h.2 (fun w hw => hvs w (List.mem_cons_of_mem _ hw))
            fun w hw => hvs' w (List.mem_cons_of_mem _ hw)]

/-- The same links are stored. -/
def SameLinks (l l' : Ledger) : Prop :=
  ∀ q, (l'.quote q).map Quote.nextOnLeg = (l.quote q).map Quote.nextOnLeg

/-- The chain of leg `i` of `r` visits exactly `qs`: the active quotes stored for the leg,
    one a maker, as many as `quoteCount` says; and every loop over it ends. -/
structure ExactLeg (l : Ledger) (max : Nat) (r : ReqIdx) (i : Nat) (leg : Leg)
    (qs : List QuoteIdx) : Prop where
  path : Path Handle.index (fun q => (l.quote q).map Quote.nextOnLeg) leg.quotesHead qs none
  count : qs.length = leg.quoteCount
  bound : leg.quoteCount ≤ max
  once : qs.Nodup
  mem : ∀ q, q ∈ qs ↔
    ∃ x, l.quote q = some x ∧ x.request = r ∧ x.leg = i ∧ x.state = .active
  lone : ∀ q ∈ qs, ∀ q' ∈ qs, ∀ x x', l.quote q = some x → l.quote q' = some x' →
    x.maker = x'.maker → q = q'
  walk : ∀ fuel, leg.quoteCount ≤ fuel → (l.walkFrom fuel leg.quotesHead).map Prod.fst = qs
  walkLeg : l.walkLeg leg = l.walkFrom leg.quoteCount leg.quotesHead
  unlink : ∀ l', SameLinks l l' → ∀ q fuel, leg.quoteCount ≤ fuel →
    l'.unlinkQuoteFrom r i q fuel leg.quotesHead =
      l'.unlinkQuoteFrom r i q leg.quoteCount leg.quotesHead
  doomed : ∀ keep : Option Selection, Work.doomed l leg keep =
    qs.filter fun q => !(keep.any fun k => decide (k.quote = q))

theorem Healthy.exactLeg (h : l.Healthy max filled) (hmax : max ≤ MAX_QUOTES_PER_LEG)
    (hactive : ∀ q o, l.market.offers q = some o → o.request = r → o.leg = i → o.state = .active)
    (hlone : ∀ q q' o o', l.market.offers q = some o → l.market.offers q' = some o' →
      o.state = .active → o'.state = .active → o.Rivals o' → q = q')
    (hr : l.request r = some y) (hopened : y.state = .opened) (hleg : y.leg i = some leg) :
    ∃ qs, l.ExactLeg max r i leg qs := by
  obtain ⟨qs, hchain, hlen, hwalk, hall⟩ := walkLeg_of_chained h.chained hr hopened hleg
  have hmem : ∀ q, q ∈ qs ↔
      ∃ x, l.quote q = some x ∧ x.request = r ∧ x.leg = i ∧ x.state = .active := by
    intro q
    rw [hchain.mem q]
    constructor
    · rintro ⟨-, x, hx, hxr, hxi⟩
      exact ⟨x, hx, hxr, hxi, hactive q _ (market_offers hx) hxr hxi⟩
    · rintro ⟨x, hx, hxr, hxi, -⟩
      exact ⟨by simp, x, hx, hxr, hxi⟩
  have hfuel : ∀ fuel, leg.quoteCount ≤ fuel → qs.length ≤ fuel := fun fuel hle =>
    hchain.count ▸ hle
  have hwalks : ∀ fuel, qs.length ≤ fuel → l.walkFrom fuel leg.quotesHead = l.walkLeg leg := by
    intro fuel hle
    obtain ⟨hmap, hstored⟩ := walkFrom_of_path fuel hchain.path hle
    have hfst : (l.walkFrom fuel leg.quotesHead).map Prod.fst = (l.walkLeg leg).map Prod.fst :=
      hmap.trans hwalk.symm
    exact eq_of_map_fst hfst hstored hall
  refine ⟨qs, ⟨hchain.path, hchain.count.symm, hchain.count.trans_le hlen, hchain.nodup, hmem, ?_,
    fun fuel hle => (walkFrom_of_path fuel hchain.path (hfuel fuel hle)).1,
    (hwalks _ hchain.count.ge).symm, ?_, fun keep => ?_⟩⟩
  · intro q hq q' hq' x x' hx hx' hmaker
    obtain ⟨v, hv, hvr, hvi, hs⟩ := (hmem q).mp hq
    obtain ⟨v', hv', hvr', hvi', hs'⟩ := (hmem q').mp hq'
    obtain rfl := Option.some.inj (hx.symm.trans hv)
    obtain rfl := Option.some.inj (hx'.symm.trans hv')
    exact hlone q q' _ _ (market_offers hx) (market_offers hx') hs hs'
      ⟨hmaker, hvr.trans hvr'.symm, hvi.trans hvi'.symm⟩
  · intro l' hlinks q fuel hle
    have hpath : Path Handle.index l'.book.nextOf leg.quotesHead qs none :=
      hchain.path.congr fun q _ => hlinks q
    exact unlinkQuoteFrom_fuel hpath (hfuel fuel hle) hchain.count.ge
  · rw [Work.doomed, hwalk]
    exact List.take_of_length_le ((List.length_filter_le _ _).trans (hlen.trans hmax))

/-- While a leg is being released, what is left of its chain is exact. -/
theorem Healthy.exactLeg_released {w : Work} {gone : List QuoteIdx} (now : Nat)
    (reason : QuoteRejectReason) (h : w.1.Healthy max none) (hmax : max ≤ MAX_QUOTES_PER_LEG)
    (hs : w.1.market.Sited) (hr : w.1.request r = some y) (hopened : y.state = .opened)
    (hleg : y.leg i = some leg) (hexact : w.1.ExactLeg max r i leg qs) (hnodup : gone.Nodup)
    (hgone : ∀ q ∈ gone, q ∈ qs) :
    ∃ leg' qs', (w.releaseQuotes r i now reason gone).1.legOf r i = some leg' ∧
      (w.releaseQuotes r i now reason gone).1.ExactLeg max r i leg' qs' ∧
      ∀ q, q ∈ qs' ↔ q ∈ qs ∧ q ∉ gone := by
  have ha := market_auctions hr
  have hi : i < y.auction.legs.length := by
    have := (List.getElem?_eq_some_iff.mp hleg).1
    simpa [Request.auction] using this
  have hclear : Clears max none (.rejecting r) now gone w (w.releaseQuotes r i now reason gone) :=
    h.releaseQuotes ha hopened hi hnodup fun q hq => by
      obtain ⟨x, hx, hxr, hxi, hstate⟩ := (hexact.mem q).mp (hgone q hq)
      exact ⟨x.offer, ⟨market_offers hx, hxr, hxi, hstate⟩, hxr⟩
  generalize w.releaseQuotes r i now reason gone = w' at hclear
  have hkept : ∀ q o, w'.1.market.offers q = some o → q ∉ gone ∧ w.1.market.offers q = some o := by
    intro q o ho
    rw [hclear.offers] at ho
    split at ho
    · cases ho
    next hstays => exact ⟨hstays, ho⟩
  obtain ⟨y', hy', hauction⟩ := request_of_market (l := w'.1) (hclear.auctions ▸ ha)
  obtain ⟨leg', hleg'⟩ : ∃ leg', y'.leg i = some leg' := by
    have hlt : i < y'.legs.length := by
      have hlegs : y'.auction.legs.length = y.auction.legs.length := by rw [hauction]
      simp only [Request.auction, List.length_map] at hlegs hi
      omega
    exact ⟨y'.legs[i], List.getElem?_eq_getElem hlt⟩
  obtain ⟨qs', hexact'⟩ := hclear.healthy.exactLeg hmax
    (fun q o ho hor _ => h.active_of_opened ha hopened (hkept q o ho).2 hor)
    (fun q q' o o' ho ho' => hs.lone q q' o o' (hkept q o ho).2 (hkept q' o' ho').2)
    hy' ((congrArg Auction.state hauction).trans hopened) hleg'
  refine ⟨leg', qs', by simp [legOf, hy', hleg'], hexact', fun q => ?_⟩
  rw [hexact'.mem, hexact.mem]
  constructor
  · rintro ⟨x, hx, hxr, hxi, hstate⟩
    obtain ⟨hstays, ho⟩ := hkept q _ (market_offers hx)
    obtain ⟨x₀, hx₀, hoffer⟩ := quote_of_market ho
    exact ⟨⟨x₀, hx₀, (congrArg Offer.request hoffer).trans hxr, (congrArg Offer.leg hoffer).trans hxi,
      (congrArg Offer.state hoffer).trans hstate⟩, hstays⟩
  · rintro ⟨⟨x₀, hx₀, hxr, hxi, hstate⟩, hstays⟩
    obtain ⟨x, hx, hoffer⟩ := quote_of_market (l := w'.1) (q := q) (o := x₀.offer) (by
      rw [hclear.offers, if_neg hstays]
      exact market_offers hx₀)
    exact ⟨x, hx, (congrArg Offer.request hoffer).trans hxr, (congrArg Offer.leg hoffer).trans hxi,
      (congrArg Offer.state hoffer).trans hstate⟩

end Ledger

namespace Engine

variable {e : Engine} {config : Config} {r : ReqIdx} {i : Nat} {y : Request} {leg : Leg}

/-- On every leg of an open request the chain is exact, and stays so while a release takes
    its quotes off, in any order. -/
theorem leg_chains_exact (h : Reachable config e) (hr : e.ledger.request r = some y)
    (hopened : y.state = .opened) (hleg : y.leg i = some leg) :
    ∃ qs, e.ledger.ExactLeg config.maxQuotesPerLeg r i leg qs ∧
      ∀ (now : Nat) (reason : QuoteRejectReason) (events : EventBuffer) (gone : List QuoteIdx),
        gone.Nodup → (∀ q ∈ gone, q ∈ qs) →
          ∃ leg' qs',
            (Work.releaseQuotes (e.ledger, events) r i now reason gone).1.legOf r i = some leg' ∧
            (Work.releaseQuotes (e.ledger, events) r i now reason gone).1.ExactLeg
              config.maxQuotesPerLeg r i leg' qs' ∧
            ∀ q, q ∈ qs' ↔ q ∈ qs ∧ q ∉ gone := by
  have hs := sane_of_reachable h
  have hhealthy := hs.healthy
  have hmax := hs.config.quotesPerLeg
  rw [h.config_eq] at hhealthy hmax
  obtain ⟨qs, hexact⟩ := hhealthy.exactLeg hmax
    (fun q o ho hor _ => hhealthy.active_of_opened (Ledger.market_auctions hr) hopened ho hor)
    h.sited.lone hr hopened hleg
  exact ⟨qs, hexact, fun now reason events gone hnodup hgone =>
    hhealthy.exactLeg_released (w := (e.ledger, events)) now reason hmax h.sited hr hopened hleg hexact
      hnodup hgone⟩

/-- The quotes of makers 1, 3 and 2 on one leg, and the chain that is left once the middle
    one is released. -/
theorem leg_chains_exact_crowded :
    crowded.ledger.ExactLeg Config.busy.maxQuotesPerLeg ⟨0, 0⟩ 0 crowdedLeg
        [⟨0, 1⟩, ⟨2, 0⟩, ⟨1, 0⟩] ∧
      ∃ leg' qs',
        (Work.releaseQuotes (crowded.ledger, .withCapacity 8) ⟨0, 0⟩ 0 4 .requestRejected
          [⟨2, 0⟩]).1.legOf ⟨0, 0⟩ 0 = some leg' ∧
        (Work.releaseQuotes (crowded.ledger, .withCapacity 8) ⟨0, 0⟩ 0 4 .requestRejected
          [⟨2, 0⟩]).1.ExactLeg Config.busy.maxQuotesPerLeg ⟨0, 0⟩ 0 leg' qs' ∧
        ∀ q, q ∈ qs' ↔ q = ⟨0, 1⟩ ∨ q = ⟨1, 0⟩ := by
  obtain ⟨qs, hexact, hreleased⟩ :=
    leg_chains_exact (i := 0) reachableAt_crowded.reachable crowded_request rfl rfl
  obtain rfl : [⟨0, 1⟩, ⟨2, 0⟩, ⟨1, 0⟩] = qs := by
    rw [← hexact.walk 3 (Nat.le_refl _)]
    decide +kernel
  refine ⟨hexact, ?_⟩
  obtain ⟨leg', qs', hleg', hexact', hmem⟩ := hreleased 4 .requestRejected (.withCapacity 8)
    [⟨2, 0⟩] (List.nodup_singleton _) (by decide)
  refine ⟨leg', qs', hleg', hexact', fun q => (hmem q).trans ?_⟩
  simp only [List.mem_cons, List.not_mem_nil, or_false]
  constructor
  · rintro ⟨rfl | rfl | rfl, hkept⟩
    · exact .inl rfl
    · exact absurd rfl hkept
    · exact .inr rfl
  · rintro (rfl | rfl) <;> decide

end Engine

end RfqSettlement
