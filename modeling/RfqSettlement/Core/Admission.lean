/-
  RfqSettlement.Core.Admission

  Which quotes keep another one out.

  `submit_quote` looks at stored quotes three times: at the maker's own on the leg,
  at the leg's count, and at the quote slab.  None of the three asks whether a quote
  is still live, so one that has lapsed and that no command has visited since counts
  like any other.  `refused_for_live_quotes_iff` says exactly when that shows.
-/

import RfqSettlement.Core.Capacity
import RfqSettlement.Core.Standing
import RfqSettlement.Core.Turns

namespace RfqSettlement

namespace Ledger

variable {l : Ledger} {max i now amount maker : Nat} {filled : Option ReqIdx} {r : ReqIdx}
  {y : Request} {leg : Leg} {q : QuoteIdx} {x : Quote}

/-- A quote that binds its maker at `now`: live on an open request, or the winner of
    a settling one. -/
def bindsAt (l : Ledger) (now : Nat) (x : Quote) : Bool :=
  match (l.request x.request).map Request.state with
  | some .opened => x.isLiveAt now
  | some (.settling _ _) => decide (x.state = .consumed)
  | _ => false

/-- How many stored quotes bind their makers. -/
def bindingQuotes (l : Ledger) (now : Nat) : Nat := l.quotes.countIf (l.bindsAt now)

/-- How many stored quotes on a leg are live. -/
def liveQuotes (l : Ledger) (r : ReqIdx) (i now : Nat) : Nat :=
  l.quotes.countIf fun x => decide (x.request = r ∧ x.leg = i) && x.isLiveAt now

-- ============================================================================
-- What a leg holds
-- ============================================================================

/-- An open leg counts the quotes stored for it. -/
theorem Healthy.quoteCount (h : l.Healthy max filled) (hr : l.request r = some y)
    (hopened : y.state = .opened) (hleg : y.leg i = some leg) :
    leg.quoteCount = l.quotes.countIf fun x => decide (x.request = r ∧ x.leg = i) := by
  obtain ⟨qs, hchain, -⟩ := h.chained.opened (book_requests hr) hopened hleg
  have hstored : ∀ q ∈ qs, ∃ x, l.quotes.get q = some x ∧ x.request = r ∧ x.leg = i :=
    fun q hq => hchain.stored hq
  have hnodup : (qs.map Handle.index).Nodup := by
    refine List.Nodup.map_on (fun q hq q' hq' heq => ?_) hchain.nodup
    obtain ⟨x, hx, -⟩ := hstored q hq
    obtain ⟨x', hx', -⟩ := hstored q' hq'
    exact Slab.eq_of_index_eq (by rw [hx]; rfl) (by rw [hx']; rfl) heq
  have hmem : ∀ j, j ∈ qs.map Handle.index ↔
      ∃ x, l.quotes.valueAt j = some x ∧ (x.request = r ∧ x.leg = i) := by
    intro j
    rw [List.mem_map]
    constructor
    · rintro ⟨q, hq, rfl⟩
      obtain ⟨x, hx, hon⟩ := hstored q hq
      exact ⟨x, Slab.valueAt_of_get hx, hon⟩
    · rintro ⟨x, hx, hon⟩
      obtain ⟨q, rfl, hget⟩ := Slab.valueAt_eq_some.mp hx
      have hget : l.book.quotes q = some x := hget
      exact ⟨q, (hchain.mem q).mpr ⟨by simp, x, hget, hon⟩, rfl⟩
  have hsum := Slab.sum_of_members (fun _ => 1) hnodup hmem
  have hones : ((qs.map Handle.index).map fun j => (l.quotes.valueAt j).elim 0 fun _ => 1) =
      (qs.map Handle.index).map fun _ => 1 := by
    refine List.map_congr_left fun j hj => ?_
    obtain ⟨x, hx, -⟩ := (hmem j).mp hj
    rw [hx]
    rfl
  have hlength : ((qs.map Handle.index).map fun _ => 1).sum = qs.length := by
    rw [List.map_const', List.sum_replicate, List.length_map, Nat.nsmul_eq_mul, Nat.mul_one]
  rw [hones, hlength] at hsum
  rw [hchain.count, hsum, Slab.countIf]
  simp only [decide_eq_true_eq]

/-- No open leg counts more than its bound. -/
theorem Healthy.quoteCount_le (h : l.Healthy max filled) (hr : l.request r = some y)
    (hopened : y.state = .opened) (hleg : y.leg i = some leg) : leg.quoteCount ≤ max := by
  obtain ⟨qs, hchain, hlen⟩ := h.chained.opened (book_requests hr) hopened hleg
  exact hchain.count.trans_le hlen

/-- The standing quote of a maker is the one they have stored on the leg. -/
theorem Healthy.standingQuoteOf_eq_some (h : l.Healthy max none) (hp : l.market.Placed)
    (hr : l.request r = some y) (hopened : y.state = .opened) (hleg : y.leg i = some leg) :
    l.standingQuoteOf leg maker = some q ↔
      ∃ x, l.quote q = some x ∧ x.maker = maker ∧ x.request = r ∧ x.leg = i := by
  constructor
  · intro hq
    obtain ⟨x, hx, hmaker, hon⟩ := h.standing hr hopened hleg hq
    exact ⟨x, hx, hmaker, hon.request, hon.leg⟩
  · rintro ⟨x, hx, hmaker, hreq, hi⟩
    have hactive := h.active_of_opened (market_auctions hr) hopened (market_offers hx) hreq
    have hon : OnLeg l.market r i q x.offer := ⟨market_offers hx, hreq, hi, hactive⟩
    cases hq : l.standingQuoteOf leg maker with
    | none => exact absurd hmaker (h.not_standing hr hopened hleg hq hon)
    | some q' =>
        obtain ⟨x', hx', hmaker', hon'⟩ := h.standing hr hopened hleg hq
        rw [hp.lone q' q _ _ hon'.offer hon.offer hon'.active hon.active
          ⟨hmaker'.trans hmaker.symm, hon'.request.trans hreq.symm, hon'.leg.trans hi.symm⟩]

/-- A stored quote binds its maker unless it has lapsed. -/
theorem Healthy.bindsAt_iff (h : l.Healthy max none) (hp : l.market.Placed)
    (hx : l.quote q = some x) :
    l.bindsAt now x = true ↔ ¬ (x.state = .active ∧ x.expiresAt ≤ now) := by
  cases hs : x.state with
  | active =>
      obtain ⟨a, ha, hopened⟩ := hp.active q _ (market_offers hx) hs
      obtain ⟨y, hy, rfl⟩ := request_of_market ha
      have hy : l.request x.request = some y := hy
      have hopened : y.state = .opened := hopened
      simp [bindsAt, hy, hopened, Quote.isLiveAt, hs]
  | released => exact absurd hs (h.coherent.standing q _ (market_offers hx))
  | consumed =>
      obtain ⟨a, ha, n, d, hsettling⟩ := hp.settling h.coherent (market_offers hx) hs
      obtain ⟨y, hy, rfl⟩ := request_of_market ha
      have hy : l.request x.request = some y := hy
      have hsettling : y.state = .settling n d := hsettling
      simp [bindsAt, hy, hsettling, hs]

theorem openQuoteReserving_exhausted (record : Quote) (hvalid : l.quotes.Valid) :
    (l.openQuoteReserving record amount).1 = .error (.slabExhausted .quote) ↔
      (∃ m, Admits l record.maker amount m) ∧ l.quotes.hasRoom = false := by
  unfold Ledger.openQuoteReserving
  cases hcheck : l.checkReservable record.maker amount with
  | error err =>
      refine iff_of_false ?_ fun ⟨⟨m, hadm⟩, _⟩ => ?_
      · simpa using Engine.checkReservable_error hcheck _
      · rw [checkReservable_eq_ok.mpr ⟨m, hadm, rfl⟩] at hcheck
        cases hcheck
  | ok reserved =>
      obtain ⟨m, hadm, -⟩ := checkReservable_eq_ok.mp hcheck
      cases hroom : l.quotes.hasRoom with
      | false => simpa using ⟨m, hadm⟩
      | true =>
          obtain ⟨⟨q, quotes⟩, hins⟩ :=
            Option.isSome_iff_exists.mp (hvalid.insert_isSome hroom record)
          simp only [hins]
          cases l.reservations.hasRoom <;> simp
          split <;> simp

end Ledger

/-- A refusal that stored quotes, or the ledger's own limits, are the reason of. -/
def EngineError.OfRoom : EngineError → Prop
  | .worseReplacement | .legQuoteLimitReached | .ledger _ => True
  | _ => False

namespace Engine

open Ledger (Healthy QuoteChecked Withdrawn Admits)

variable {e : Engine} {now maker i price size expiresAt amount : Nat} {events : EventBuffer}
  {r : ReqIdx} {q : QuoteIdx} {stood : Option QuoteIdx} {x : Quote} {y : Request} {leg : Leg}
  {err : EngineError}

-- ============================================================================
-- The checks of a submission
-- ============================================================================

/-- A submission that passes every check before the stored quotes are looked at. -/
structure Tenders (e : Engine) (r : ReqIdx) (i price size expiresAt now : Nat) (y : Request)
    (leg : Leg) : Prop where
  request : e.ledger.request r = some y
  opened : y.state = .opened
  deadline : now < y.deadline
  found : y.leg i = some leg
  expiry : now < expiresAt
  ttl : expiresAt - now ≤ e.config.maxQuoteTtl
  priced : price ≤ UNIT
  sized : leg.size ≤ size

theorem Tenders.refused (h : e.Tenders r i price size expiresAt now y leg)
    (hreplace : e.checkReplacement leg (e.ledger.standingQuoteOf leg maker) price = .error err) :
    e.checkQuote maker r i price size expiresAt now events = .error err := by
  simp only [Engine.checkQuote, h.request, h.opened, ne_eq, not_true_eq_false, if_false,
    if_neg (Nat.not_le.mpr h.deadline), h.found, if_neg (Nat.not_le.mpr h.expiry),
    if_neg (Nat.not_lt.mpr h.ttl), if_neg (Nat.not_lt.mpr h.priced),
    if_neg (Nat.not_lt.mpr h.sized), hreplace]

/-- The check that refuses for room comes after every other but two. -/
theorem checkQuote_ofRoom
    (h : e.checkQuote maker r i price size expiresAt now events = .error err)
    (hroom : err.OfRoom) :
    ∃ y leg, e.Tenders r i price size expiresAt now y leg ∧
      e.checkReplacement leg (e.ledger.standingQuoteOf leg maker) price = .error err := by
  unfold Engine.checkQuote at h
  split at h
  · cases h
    exact hroom.elim
  next y hy =>
  split at h
  · cases h
    exact hroom.elim
  next hopened =>
  split at h
  · cases h
    exact hroom.elim
  next hdeadline =>
  split at h
  · cases h
    exact hroom.elim
  next leg hleg =>
  split at h
  · cases h
    exact hroom.elim
  next hexpiry =>
  split at h
  · cases h
    exact hroom.elim
  next httl =>
  split at h
  · cases h
    exact hroom.elim
  next hprice =>
  split at h
  · cases h
    exact hroom.elim
  next hsize =>
  split at h
  next hreplace =>
    cases h
    exact ⟨y, leg, ⟨hy, by simpa using hopened, by omega, hleg, by omega, by omega, by omega,
      by omega⟩, hreplace⟩
  split at h
  · cases h
    exact hroom.elim
  split at h
  · cases h
    exact hroom.elim
  · cases h

theorem checkReplacement_error
    (h : e.checkReplacement leg stood price = .error err) :
    err = .unknownQuote ∨
      err = .worseReplacement ∧ (∃ q x, stood = some q ∧ e.ledger.quote q = some x ∧ x.price < price) ∨
      err = .legQuoteLimitReached ∧ stood = none ∧ e.config.maxQuotesPerLeg ≤ leg.quoteCount := by
  unfold Engine.checkReplacement at h
  split at h
  next q =>
    split at h
    · cases h
      exact .inl rfl
    next x hx =>
      split at h
      next hlt =>
        cases h
        exact .inr (.inl ⟨rfl, q, x, rfl, hx, hlt⟩)
      · cases h
  next =>
    split at h
    next hle =>
      cases h
      exact .inr (.inr ⟨rfl, rfl, hle⟩)
    · cases h

theorem submitQuote_of_error
    (h : e.checkQuote maker r i price size expiresAt now events = .error err) :
    e.submitQuote maker r i price size expiresAt now events = e.refuse events err := by
  simp only [Engine.submitQuote, h]

/-- What passes the checks is refused by the ledger, if at all. -/
theorem submitQuote_of_ok
    (h : e.checkQuote maker r i price size expiresAt now events = .ok (stood, amount)) :
    (e.submitQuote maker r i price size expiresAt now events).1 = .error err ↔
      ∃ x, err = .ledger x ∧
        ((withdrawStanding (e.ledger, events) maker r i stood).1.openQuoteReserving
          (Quote.new maker r i price size expiresAt e.nextArrival) amount).1 = .error x := by
  simp only [Engine.submitQuote, h]
  generalize (withdrawStanding (e.ledger, events) maker r i stood).1.openQuoteReserving
    (Quote.new maker r i price size expiresAt e.nextArrival) amount = opened
  obtain ⟨x | ⟨q, claim⟩, l'⟩ := opened
  · simp [refuse, eq_comm]
  · simp [done]

theorem refused_worse_iff :
    (e.submitQuote maker r i price size expiresAt now events).1 = .error .worseReplacement ↔
      ∃ y leg q x, e.Tenders r i price size expiresAt now y leg ∧
        e.ledger.standingQuoteOf leg maker = some q ∧ e.ledger.quote q = some x ∧
          x.price < price := by
  constructor
  · intro h
    cases hcheck : e.checkQuote maker r i price size expiresAt now events with
    | ok v =>
        obtain ⟨x, hx, -⟩ := (submitQuote_of_ok hcheck).mp h
        cases hx
    | error err =>
        rw [submitQuote_of_error hcheck] at h
        obtain rfl : err = .worseReplacement := by simpa [refuse] using h
        obtain ⟨y, leg, ht, hreplace⟩ := checkQuote_ofRoom hcheck trivial
        rcases checkReplacement_error hreplace with hbad | ⟨-, q, x, hq, hx, hlt⟩ | ⟨hbad, -⟩
        · cases hbad
        · exact ⟨y, leg, q, x, ht, hq, hx, hlt⟩
        · cases hbad
  · rintro ⟨y, leg, q, x, ht, hq, hx, hlt⟩
    have hreplace : e.checkReplacement leg (e.ledger.standingQuoteOf leg maker) price =
        .error .worseReplacement := by
      simp only [checkReplacement, hq, hx, if_pos hlt]
    rw [submitQuote_of_error (ht.refused hreplace)]
    rfl

theorem refused_full_iff :
    (e.submitQuote maker r i price size expiresAt now events).1 = .error .legQuoteLimitReached ↔
      ∃ y leg, e.Tenders r i price size expiresAt now y leg ∧
        e.ledger.standingQuoteOf leg maker = none ∧
          e.config.maxQuotesPerLeg ≤ leg.quoteCount := by
  constructor
  · intro h
    cases hcheck : e.checkQuote maker r i price size expiresAt now events with
    | ok v =>
        obtain ⟨x, hx, -⟩ := (submitQuote_of_ok hcheck).mp h
        cases hx
    | error err =>
        rw [submitQuote_of_error hcheck] at h
        obtain rfl : err = .legQuoteLimitReached := by simpa [refuse] using h
        obtain ⟨y, leg, ht, hreplace⟩ := checkQuote_ofRoom hcheck trivial
        rcases checkReplacement_error hreplace with hbad | ⟨hbad, -⟩ | ⟨-, hnone, hle⟩
        · cases hbad
        · cases hbad
        · exact ⟨y, leg, ht, hnone, hle⟩
  · rintro ⟨y, leg, ht, hnone, hle⟩
    have hreplace : e.checkReplacement leg (e.ledger.standingQuoteOf leg maker) price =
        .error .legQuoteLimitReached := by
      simp only [checkReplacement, hnone, if_pos hle]
    rw [submitQuote_of_error (ht.refused hreplace)]
    rfl

/-- Whether the maker's account covers a contribution once the quote it replaces has
    given back its claim. -/
def Covers (e : Engine) (maker : Nat) (stood : Option QuoteIdx) (amount : Nat) : Prop :=
  ∃ m, e.ledger.account maker = some m ∧
    m.reserved - (stood.bind e.ledger.quote).elim 0 e.ledger.heldBy + m.committed + amount ≤
      min m.free u64Max

/-- What the quote slab's refusal depends on, once the checks have passed. -/
theorem Sane.exhausted_of_checked (h : e.Sane)
    (hc : QuoteChecked e maker r i price size expiresAt now events stood amount y leg) :
    ((withdrawStanding (e.ledger, events) maker r i stood).1.openQuoteReserving
        (Quote.new maker r i price size expiresAt e.nextArrival) amount).1 =
          .error (.slabExhausted .quote) ↔
      e.Covers maker stood amount ∧ e.ledger.quotes.hasRoom = false ∧
        ∀ q, stood = some q → u32Max < q.generation + 1 := by
  have hw := h.healthy.withdrawStanding rfl hc
  rw [Ledger.openQuoteReserving_exhausted _ hw.carried.healthy.intact.wired.quotes]
  cases hstood : stood with
  | none =>
      have huntouched := hw.untouched hstood
      rw [hstood] at huntouched
      rw [huntouched]
      constructor
      · rintro ⟨⟨m, hm, hfits, hcovered⟩, hroom⟩
        exact ⟨⟨m, hm, by simp; omega⟩, hroom, by simp⟩
      · rintro ⟨⟨m, hm, hle⟩, hroom, -⟩
        simp at hle
        exact ⟨⟨m, hm, by omega, by omega⟩, hroom⟩
  | some q =>
      subst hstood
      obtain ⟨x, held, hx, hret, -⟩ := hw.retired q rfl
      have hx : e.ledger.quote q = some x := hx
      obtain ⟨x', hx', hmaker, -⟩ :=
        h.healthy.standing (q := q) hc.request hc.opened hc.found hc.located.symm
      rw [hx, Option.some.injEq] at hx'
      subst hx'
      subst hmaker
      have hadmits : (∃ m, Admits _ x.maker amount m) ↔ _ := Ledger.admits_retired h.healthy hx hret
      have hroom := hret.quoteRoom
      generalize (withdrawStanding (e.ledger, events) x.maker r i (some q)).1 = l' at *
      rw [show (Quote.new x.maker r i price size expiresAt e.nextArrival).maker = x.maker from rfl,
        hadmits, hroom, Bool.or_eq_false_iff, decide_eq_false_iff_not]
      simp only [Covers, Option.bind_some, hx, Option.elim_some, Option.some.injEq, forall_eq',
        Nat.not_le, Nat.le_min]
      tauto

theorem Sane.refused_exhausted_iff (h : e.Sane) :
    (e.submitQuote maker r i price size expiresAt now events).1 =
        .error (.ledger (.slabExhausted .quote)) ↔
      ∃ stood amount y leg,
        QuoteChecked e maker r i price size expiresAt now events stood amount y leg ∧
          e.Covers maker stood amount ∧ e.ledger.quotes.hasRoom = false ∧
            ∀ q, stood = some q → u32Max < q.generation + 1 := by
  constructor
  · intro hanswer
    cases hcheck : e.checkQuote maker r i price size expiresAt now events with
    | error err =>
        rw [submitQuote_of_error hcheck] at hanswer
        obtain rfl : err = .ledger (.slabExhausted .quote) := by simpa [refuse] using hanswer
        obtain ⟨y, leg, -, hreplace⟩ := checkQuote_ofRoom hcheck trivial
        rcases checkReplacement_error hreplace with hbad | ⟨hbad, -⟩ | ⟨hbad, -⟩ <;> cases hbad
    | ok v =>
        obtain ⟨stood, amount⟩ := v
        obtain ⟨y, leg, hc⟩ := Ledger.checkQuote_ok hcheck
        obtain ⟨x, hx, hopen⟩ := (submitQuote_of_ok hcheck).mp hanswer
        obtain rfl := EngineError.ledger.inj hx
        exact ⟨stood, amount, y, leg, hc, (h.exhausted_of_checked hc).mp hopen⟩
  · rintro ⟨stood, amount, y, leg, hc, hrest⟩
    have hcheck := checkQuote_of_checked hc fun q hq => by
      obtain ⟨x, hx, -⟩ :=
        h.healthy.standing hc.request hc.opened hc.found (hc.located.symm.trans hq)
      exact ⟨x, hx⟩
    exact (submitQuote_of_ok hcheck).mpr ⟨_, rfl, (h.exhausted_of_checked hc).mpr hrest⟩

-- ============================================================================
-- Lapsed quotes
-- ============================================================================

/-- The maker's own quote on the leg has lapsed, and was cheaper. -/
structure Outbids (e : Engine) (maker : Nat) (r : ReqIdx) (i price size expiresAt now : Nat) :
    Prop where
  tenders : ∃ y leg, e.Tenders r i price size expiresAt now y leg
  lapsed : ∃ q x, e.ledger.quote q = some x ∧ x.maker = maker ∧ x.request = r ∧ x.leg = i ∧
    x.expiresAt ≤ now ∧ x.price < price

/-- The leg is full, the maker has no quote on it, and some quote on it has lapsed. -/
structure Crowds (e : Engine) (maker : Nat) (r : ReqIdx) (i price size expiresAt now : Nat) :
    Prop where
  full : ∃ y leg, e.Tenders r i price size expiresAt now y leg ∧
    e.config.maxQuotesPerLeg ≤ leg.quoteCount
  new : ∀ q x, e.ledger.quote q = some x → x.request = r → x.leg = i → x.maker ≠ maker
  lapsed : ∃ q x, e.ledger.quote q = some x ∧ x.request = r ∧ x.leg = i ∧ x.expiresAt ≤ now

/-- Every check is passed and the contribution is covered, the quote slab has no slot
    and is given none back, and some quote has lapsed or some slot was retired. -/
structure Clogs (e : Engine) (maker : Nat) (r : ReqIdx) (i price size expiresAt now : Nat)
    (events : EventBuffer) : Prop where
  passes : ∃ stood amount y leg,
    QuoteChecked e maker r i price size expiresAt now events stood amount y leg ∧
      e.Covers maker stood amount ∧ ∀ q, stood = some q → u32Max < q.generation + 1
  full : e.ledger.quotes.hasRoom = false
  slack : (∃ q x, e.ledger.quote q = some x ∧ x.state = .active ∧ x.expiresAt ≤ now) ∨
    e.ledger.quotes.count < e.config.maxQuotes

/-- A cheaper live quote of the maker's own on the leg. -/
def UndercutsSelf (e : Engine) (maker : Nat) (r : ReqIdx) (i price now : Nat) : Prop :=
  ∃ q x, e.ledger.quote q = some x ∧ x.maker = maker ∧ x.request = r ∧ x.leg = i ∧
    x.isLiveAt now = true ∧ x.price < price

theorem Sane.worse_only_for_live_iff (h : e.Sane) (hp : e.market.Placed) :
    ((e.submitQuote maker r i price size expiresAt now events).1 = .error .worseReplacement →
        e.UndercutsSelf maker r i price now) ↔
      ¬ e.Outbids maker r i price size expiresAt now := by
  rw [refused_worse_iff]
  constructor
  · rintro hlive ⟨⟨y, leg, ht⟩, q, x, hx, hmaker, hreq, hi, hlapsed, hlt⟩
    have hq := (h.healthy.standingQuoteOf_eq_some hp ht.request ht.opened ht.found).mpr
      ⟨x, hx, hmaker, hreq, hi⟩
    obtain ⟨q', x', hx', hmaker', hreq', hi', hlive', -⟩ := hlive ⟨y, leg, q, x, ht, hq, hx, hlt⟩
    have hq' := (h.healthy.standingQuoteOf_eq_some hp ht.request ht.opened ht.found).mpr
      ⟨x', hx', hmaker', hreq', hi'⟩
    rw [hq, Option.some.injEq] at hq'
    subst hq'
    rw [hx, Option.some.injEq] at hx'
    subst hx'
    simp only [Quote.isLiveAt, decide_eq_true_eq] at hlive'
    omega
  · rintro hnot ⟨y, leg, q, x, ht, hq, hx, hlt⟩
    obtain ⟨x', hx', hmaker, hreq, hi⟩ :=
      (h.healthy.standingQuoteOf_eq_some hp ht.request ht.opened ht.found).mp hq
    rw [hx, Option.some.injEq] at hx'
    subst hx'
    have hactive : x.state = .active := h.healthy.active_of_opened (Ledger.market_auctions ht.request)
      ht.opened (Ledger.market_offers hx) hreq
    refine ⟨q, x, hx, hmaker, hreq, hi, ?_, hlt⟩
    rw [Quote.isLiveAt, decide_eq_true_eq]
    refine ⟨hactive, ?_⟩
    by_contra hlapsed
    exact hnot ⟨⟨y, leg, ht⟩, q, x, hx, hmaker, hreq, hi, by omega, hlt⟩

theorem Sane.full_only_for_live_iff (h : e.Sane) (hp : e.market.Placed) :
    ((e.submitQuote maker r i price size expiresAt now events).1 = .error .legQuoteLimitReached →
        e.config.maxQuotesPerLeg ≤ e.ledger.liveQuotes r i now) ↔
      ¬ e.Crowds maker r i price size expiresAt now := by
  rw [refused_full_iff]
  constructor
  · rintro hlive ⟨⟨y, leg, ht, hfull⟩, hnew, q, x, hx, hreq, hi, hlapsed⟩
    have hnone : e.ledger.standingQuoteOf leg maker = none := by
      cases hq : e.ledger.standingQuoteOf leg maker with
      | none => rfl
      | some q' =>
          obtain ⟨x', hx', hmaker, hreq', hi'⟩ :=
            (h.healthy.standingQuoteOf_eq_some hp ht.request ht.opened ht.found).mp hq
          exact absurd hmaker (hnew q' x' hx' hreq' hi')
    have hmost := h.healthy.quoteCount_le ht.request ht.opened ht.found
    have hle := hmost.trans (hlive ⟨y, leg, ht, hnone, hfull⟩)
    rw [h.healthy.quoteCount ht.request ht.opened ht.found] at hle
    have hx' := (Slab.countIf_le_and _ _).mp hle q x hx (by simp [hreq, hi])
    simp only [Quote.isLiveAt, decide_eq_true_eq] at hx'
    omega
  · rintro hnot ⟨y, leg, ht, hnone, hfull⟩
    rw [h.healthy.quoteCount ht.request ht.opened ht.found] at hfull
    refine hfull.trans ((Slab.countIf_le_and _ _).mpr fun q x hx hon => ?_)
    obtain ⟨hreq, hi⟩ : x.request = r ∧ x.leg = i := by simpa using hon
    have hactive : x.state = .active := h.healthy.active_of_opened (Ledger.market_auctions ht.request)
      ht.opened (Ledger.market_offers hx) hreq
    rw [Quote.isLiveAt, decide_eq_true_eq]
    refine ⟨hactive, ?_⟩
    by_contra hlapsed
    refine hnot ⟨⟨y, leg, ht, ?_⟩, fun q' x' hx' hreq' hi' hmaker => ?_,
      q, x, hx, hreq, hi, by omega⟩
    · rw [h.healthy.quoteCount ht.request ht.opened ht.found]
      exact hfull
    · rw [(h.healthy.standingQuoteOf_eq_some hp ht.request ht.opened ht.found).mpr
        ⟨x', hx', hmaker, hreq', hi'⟩] at hnone
      cases hnone

theorem Sane.exhausted_only_for_binding_iff (h : e.Sane) (hp : e.market.Placed)
    (hcapacity : e.ledger.quotes.capacity = e.config.maxQuotes) :
    ((e.submitQuote maker r i price size expiresAt now events).1 =
          .error (.ledger (.slabExhausted .quote)) →
        e.config.maxQuotes ≤ e.ledger.bindingQuotes now) ↔
      ¬ e.Clogs maker r i price size expiresAt now events := by
  rw [h.refused_exhausted_iff]
  have hmost : e.ledger.quotes.count ≤ e.config.maxQuotes := hcapacity ▸ Slab.count_le_capacity
  have hall := Slab.count_le_countIf (s := e.ledger.quotes) (e.ledger.bindsAt now)
  constructor
  · rintro hbinding ⟨⟨stood, amount, y, leg, hc, hcovers, hspent⟩, hfull, hslack⟩
    have hle := hbinding ⟨stood, amount, y, leg, hc, hcovers, hfull, hspent⟩
    rcases hslack with ⟨q, x, hx, hlapsed⟩ | hlt
    · exact (h.healthy.bindsAt_iff hp hx).mp (hall.mp (hmost.trans hle) q x hx) hlapsed
    · exact absurd (hle.trans (Slab.countIf_le_count _)) (by omega)
  · rintro hnot ⟨stood, amount, y, leg, hc, hcovers, hfull, hspent⟩
    by_contra hshort
    refine hnot ⟨⟨stood, amount, y, leg, hc, hcovers, hspent⟩, hfull, ?_⟩
    by_contra hno
    have hfilled : e.config.maxQuotes ≤ e.ledger.quotes.count :=
      Nat.not_lt.mp fun hlt => hno (.inr hlt)
    refine hshort (hfilled.trans (hall.mpr fun q x hx => ?_))
    exact (h.healthy.bindsAt_iff hp hx).mpr fun hlapsed => hno (.inl ⟨q, x, hx, hlapsed⟩)

/-- Live quotes and winners alone keep a quote out exactly when no lapsed quote of the
    maker's own was cheaper, none fills up the leg, and none fills up the slab. -/
theorem refused_for_live_quotes_iff {config : Config} {last : Nat} (h : ReachableAt config last e)
    (input : Input) (hcommand : input.command = .submitQuote maker r i price size expiresAt) :
    (((e.answer input).1 = .error .worseReplacement →
        (e.normalisedFor input).UndercutsSelf maker r i price input.now) ∧
      ((e.answer input).1 = .error .legQuoteLimitReached →
        config.maxQuotesPerLeg ≤ (e.normalisedFor input).ledger.liveQuotes r i input.now) ∧
      ((e.answer input).1 = .error (.ledger (.slabExhausted .quote)) →
        config.maxQuotes ≤ (e.normalisedFor input).ledger.bindingQuotes input.now)) ↔
      ¬ (e.normalisedFor input).Outbids maker r i price size expiresAt input.now ∧
        ¬ (e.normalisedFor input).Crowds maker r i price size expiresAt input.now ∧
        ¬ (e.normalisedFor input).Clogs maker r i price size expiresAt input.now
          (.withCapacity input.capacity) := by
  have hn := h.sane.normalised input.command input.now
  have hsane : (e.normalisedFor input).Sane := hn.sane
  have hp : (e.normalisedFor input).market.Placed := hn.placed h.placed
  obtain ⟨hconfig, -, hcapacity⟩ := slots_of_reachable h.reachable
  have hconfig' : (e.normalisedFor input).config = config := hn.config.trans hconfig
  have hcapacity' : (e.normalisedFor input).ledger.quotes.capacity =
      (e.normalisedFor input).config.maxQuotes := by
    rw [hconfig']
    exact (h.sane.sameRecords_normaliseAll _).capacity.trans hcapacity
  have hanswer : (e.answer input).1 = ((e.normalisedFor input).submitQuote maker r i price size
      expiresAt input.now (.withCapacity input.capacity)).1 := by
    rw [Engine.answer, Engine.apply, normalisedFor, hcommand]
    rfl
  rw [hanswer, ← hconfig', hsane.worse_only_for_live_iff hp, hsane.full_only_for_live_iff hp,
    hsane.exhausted_only_for_binding_iff hp hcapacity']

/-- While the standing quote lives, a worse price is refused for it. -/
theorem refused_for_live_quotes_iff_standing :
    (standing.answer ⟨.submitQuote 1 ⟨0, 0⟩ 0 650000 2 60, 3, 8⟩).1 = .error .worseReplacement ∧
      (standing.normalisedFor
        ⟨.submitQuote 1 ⟨0, 0⟩ 0 650000 2 60, 3, 8⟩).UndercutsSelf 1 ⟨0, 0⟩ 0 650000 3 := by
  have hrefused : (standing.answer ⟨.submitQuote 1 ⟨0, 0⟩ 0 650000 2 60, 3, 8⟩).1 =
      .error .worseReplacement := by decide +kernel
  have hlive : ∀ q x, (standing.normalisedFor
      ⟨.submitQuote 1 ⟨0, 0⟩ 0 650000 2 60, 3, 8⟩).ledger.quote q = some x → 3 < x.expiresAt := by
    intro q x hx
    have hall : ∀ v ∈ (standing.normalisedFor
        ⟨.submitQuote 1 ⟨0, 0⟩ 0 650000 2 60, 3, 8⟩).ledger.quotes.iter, 3 < v.2.expiresAt := by
      decide +kernel
    exact hall (q, x) (Slab.mem_iter.mpr hx)
  have hroom : (standing.normalisedFor
      ⟨.submitQuote 1 ⟨0, 0⟩ 0 650000 2 60, 3, 8⟩).ledger.quotes.hasRoom = true := by decide +kernel
  refine ⟨hrefused, ((refused_for_live_quotes_iff reachableAt_standing _ rfl).mpr
    ⟨?_, ?_, ?_⟩).1 hrefused⟩
  · rintro ⟨-, q, x, hx, -, -, -, hlapsed, -⟩
    exact absurd (hlive q x hx) (Nat.not_lt.mpr hlapsed)
  · rintro ⟨-, -, q, x, hx, -, -, hlapsed⟩
    exact absurd (hlive q x hx) (Nat.not_lt.mpr hlapsed)
  · rintro ⟨-, hfull, -⟩
    rw [hroom] at hfull
    cases hfull

/-- The standing quote dies at 40, and is in its maker's way at 41. -/
theorem refused_for_lapsed_quote :
    ¬ ∀ (config : Config) (e : Engine) (last : Nat), ReachableAt config last e →
      ∀ (input : Input) (maker : Nat) (r : ReqIdx) (i price size expiresAt : Nat),
        last ≤ input.now → input.command = .submitQuote maker r i price size expiresAt →
          (e.answer input).1 = .error .worseReplacement →
            (e.normalisedFor input).UndercutsSelf maker r i price input.now := by
  intro h
  obtain ⟨q, x, hx, -, -, -, hlive, -⟩ := h Config.small standing 2 reachableAt_standing
    ⟨.submitQuote 1 ⟨0, 0⟩ 0 650000 2 60, 41, 8⟩ 1 ⟨0, 0⟩ 0 650000 2 60 (by decide) rfl
    (by decide +kernel)
  have hdead : ∀ v ∈ (standing.normalisedFor
      ⟨.submitQuote 1 ⟨0, 0⟩ 0 650000 2 60, 41, 8⟩).ledger.quotes.iter, ¬ v.2.isLiveAt 41 = true := by
    decide +kernel
  exact hdead (q, x) (Slab.mem_iter.mpr hx) hlive

end Engine

end RfqSettlement
