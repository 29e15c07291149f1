/-
  RfqSettlement.Core.BestExecution

  The best quote of a leg, and what an accept makes of it.  The scan of a leg
  finds the eligible quote that is first by price and then by arrival, or says
  why there is none (`BestOf`); an accept with its conditions in order is refused
  at the first leg whose best quote is missing or dearer than expected
  (`LegFails`), and otherwise fills every leg at its best quote.
-/

import RfqSettlement.Core.Inheritance
import RfqSettlement.Core.Standing

namespace RfqSettlement

-- ============================================================================
-- Best quotes
-- ============================================================================

/-- A stored quote on leg `i` of `r`. -/
structure Ledger.QuotedOn (l : Ledger) (r : ReqIdx) (i : Nat) (q : QuoteIdx) (x : Quote) : Prop where
  stored : l.quote q = some x
  request : x.request = r
  leg : x.leg = i

/-- `x` is cheaper than `x'`, or as cheap and no later. -/
def Quote.Precedes (x x' : Quote) : Prop :=
  x.price < x'.price ∨ x.price = x'.price ∧ x.arrival ≤ x'.arrival

theorem Quote.Precedes.refl (x : Quote) : x.Precedes x := .inr ⟨rfl, Nat.le_refl _⟩

theorem Quote.Precedes.trans {x y z : Quote} (h : x.Precedes y) (h' : y.Precedes z) :
    x.Precedes z := by
  unfold Quote.Precedes at *
  omega

/-- What the best selection of leg `i` of `r` is at `now`.  Only quotes that
    arrived after the counter saturated may tie. -/
inductive BestOf (l : Ledger) (r : ReqIdx) (i : Nat) (leg : Leg) (now : Nat) :
    Except NoQuoteReason Selection → Prop where
  | found {q : QuoteIdx} {x : Quote} (hq : l.QuotedOn r i q x)
      (heligible : x.isEligible leg now = true)
      (hleast : ∀ q' x', l.QuotedOn r i q' x' → x'.isEligible leg now = true → x.Precedes x')
      (hunique : ∀ q' x', l.QuotedOn r i q' x' → x'.isEligible leg now = true →
        x'.Precedes x → q' = q ∨ x.arrival = u64Max) :
      BestOf l r i leg now (.ok ⟨q, x.price⟩)
  | noQuotes (hnone : ∀ q x, ¬ l.QuotedOn r i q x) : BestOf l r i leg now (.error .noQuotes)
  | allExpired (hsome : ∃ q x, l.QuotedOn r i q x)
      (hdead : ∀ q x, l.QuotedOn r i q x → x.isLiveAt now = false) :
      BestOf l r i leg now (.error .allExpired)
  | outsideLimit (hlive : ∃ q x, l.QuotedOn r i q x ∧ x.isLiveAt now = true)
      (hnone : ∀ q x, l.QuotedOn r i q x → x.isEligible leg now = false) :
      BestOf l r i leg now (.error .outsideLimit)

-- ============================================================================
-- The scan
-- ============================================================================

variable {leg : Leg} {now : Nat} {s : Scan} {v : QuoteIdx × Quote} {vs : List (QuoteIdx × Quote)}

/-- The best of the quotes `vs`, if one of them is eligible. -/
inductive BestAmong (leg : Leg) (now : Nat) (vs : List (QuoteIdx × Quote)) :
    Option Selection → Nat → Prop where
  | missing {arrival : Nat} (h : ∀ v ∈ vs, v.2.isEligible leg now = false) :
      BestAmong leg now vs none arrival
  | chosen {v : QuoteIdx × Quote} (hv : v ∈ vs) (heligible : v.2.isEligible leg now = true)
      (hleast : ∀ v' ∈ vs, v'.2.isEligible leg now = true → v.2.Precedes v'.2) :
      BestAmong leg now vs (some ⟨v.1, v.2.price⟩) v.2.arrival

/-- What a scan has seen once it has visited `vs`. -/
structure Scanned (leg : Leg) (now : Nat) (vs : List (QuoteIdx × Quote)) (s : Scan) : Prop where
  quote : s.sawQuote = !vs.isEmpty
  live : s.sawLive = vs.any fun v => v.2.isLiveAt now
  bigEnough : s.sawBigEnough = vs.any fun v => v.2.isLiveAt now && decide (leg.size ≤ v.2.size)
  best : BestAmong leg now vs s.best s.bestArrival

theorem scanned_nil : Scanned leg now [] {} :=
  ⟨rfl, rfl, rfl, .missing (by simp)⟩

/-- A quote that may not fill the leg is passed over. -/
theorem BestAmong.skip {best : Option Selection} {arrival : Nat}
    (h : BestAmong leg now vs best arrival) (hv : v.2.isEligible leg now = false) :
    BestAmong leg now (vs ++ [v]) best arrival := by
  have hnew : ∀ v' ∈ vs ++ [v], v'.2.isEligible leg now = true → v' ∈ vs := by
    intro v' hv' helig
    rcases List.mem_append.mp hv' with hold | hnew
    · exact hold
    · obtain rfl := List.mem_singleton.mp hnew
      rw [hv] at helig
      cases helig
  cases h with
  | missing hnone =>
      refine .missing fun v' hv' => ?_
      by_contra helig
      rw [Bool.not_eq_false] at helig
      rw [hnone v' (hnew v' hv' helig)] at helig
      cases helig
  | chosen hmem helig hleast =>
      exact .chosen (List.mem_append_left _ hmem) helig
        fun v' hv' helig' => hleast v' (hnew v' hv' helig') helig'

/-- One that may displaces the best so far exactly if it comes before it. -/
theorem BestAmong.offer (h : BestAmong leg now vs s.best s.bestArrival)
    (hv : v.2.isEligible leg now = true) :
    if s.better v.2 then BestAmong leg now (vs ++ [v]) (some ⟨v.1, v.2.price⟩) v.2.arrival
      else BestAmong leg now (vs ++ [v]) s.best s.bestArrival := by
  have hself : v ∈ vs ++ [v] := by simp
  generalize hbest : s.best = best at h ⊢
  generalize harrival : s.bestArrival = arrival at h ⊢
  cases h with
  | missing hnone =>
      simp only [Scan.better, hbest, if_true]
      refine .chosen hself hv fun v' hv' helig' => ?_
      rcases List.mem_append.mp hv' with hold | hnew
      · rw [hnone v' hold] at helig'
        cases helig'
      · obtain rfl := List.mem_singleton.mp hnew
        exact .refl _
  | @chosen b hmem helig hleast =>
      have hbetter : s.better v.2 = true ↔ ¬ b.2.Precedes v.2 := by
        simp only [Scan.better, hbest, harrival, Bool.or_eq_true, Bool.and_eq_true, decide_eq_true_eq,
          Quote.Precedes]
        omega
      split
      next hdisplaces =>
        refine .chosen hself hv fun v' hv' helig' => ?_
        rcases List.mem_append.mp hv' with hold | hnew
        · have hle := hleast v' hold helig'
          have hnot := hbetter.mp hdisplaces
          unfold Quote.Precedes at *
          omega
        · obtain rfl := List.mem_singleton.mp hnew
          exact .refl _
      next hstays =>
        rw [hbetter, not_not] at hstays
        refine .chosen (List.mem_append_left _ hmem) helig fun v' hv' helig' => ?_
        rcases List.mem_append.mp hv' with hold | hnew
        · exact hleast v' hold helig'
        · obtain rfl := List.mem_singleton.mp hnew
          exact hstays

/-- One quote more. -/
theorem Scanned.visit (h : Scanned leg now vs s) : Scanned leg now (vs ++ [v]) (s.visit leg now v) := by
  obtain ⟨hquote, hlive, hbig, hbest⟩ := h
  have hany : ∀ p : QuoteIdx × Quote → Bool, (vs ++ [v]).any p = (vs.any p || p v) := by simp
  have hnonempty : (!(vs ++ [v]).isEmpty) = true := by simp
  unfold Scan.visit
  dsimp only
  split
  next hdead =>
    have hdead : v.2.isLiveAt now = false := by simpa using hdead
    refine ⟨by rw [hnonempty], ?_, ?_, hbest.skip (by simp [Quote.isEligible, hdead])⟩
    · rw [hany, hdead, Bool.or_false]
      exact hlive
    · rw [hany, hdead, Bool.false_and, Bool.or_false]
      exact hbig
  next halive =>
  have halive : v.2.isLiveAt now = true := by simpa using halive
  have hlive' : true = (vs ++ [v]).any fun v => v.2.isLiveAt now := by rw [hany, halive, Bool.or_true]
  split
  next hsmall =>
    have hsmall : decide (leg.size ≤ v.2.size) = false := by simpa using hsmall
    refine ⟨by rw [hnonempty], hlive', ?_, hbest.skip (by simp [Quote.isEligible, hsmall])⟩
    rw [hany, hsmall, Bool.and_false, Bool.or_false]
    exact hbig
  next hsize =>
  have hsize : decide (leg.size ≤ v.2.size) = true := by simpa using hsize
  have hbig' : true =
      (vs ++ [v]).any fun v => v.2.isLiveAt now && decide (leg.size ≤ v.2.size) := by
    rw [hany, halive, hsize, Bool.and_true, Bool.or_true]
  split
  next hdear =>
    exact ⟨by rw [hnonempty], hlive', hbig', hbest.skip (by simp [Quote.isEligible, hdear])⟩
  next hprice =>
    have hoffer := hbest.offer (v := v)
      (by simp [Quote.isEligible, halive, hsize, Nat.not_lt.mp hprice])
    split
    next hdisplaces =>
      have hdisplaces : s.better v.2 = true := hdisplaces
      rw [if_pos hdisplaces] at hoffer
      exact ⟨by rw [hnonempty], hlive', hbig', hoffer⟩
    next hstays =>
      have hstays : ¬ s.better v.2 = true := hstays
      rw [if_neg hstays] at hoffer
      exact ⟨by rw [hnonempty], hlive', hbig', hoffer⟩

/-- The whole scan. -/
theorem scanned_foldl (ws : List (QuoteIdx × Quote)) (h : Scanned leg now vs s) :
    Scanned leg now (vs ++ ws) (ws.foldl (Scan.visit leg now) s) := by
  induction ws generalizing vs s with
  | nil => rwa [List.append_nil]
  | cons w ws ih =>
      have hstep := ih (h.visit (v := w))
      rwa [List.append_assoc, List.singleton_append] at hstep

-- ============================================================================
-- Arrivals
-- ============================================================================

namespace Engine

open Ledger (Inherits QuotedOn)

variable {e e' : Engine} {config : Config} {command : Command} {events : EventBuffer}

/-- Arrivals tell the stored quotes apart, until the counter saturates. -/
structure Numbered (e : Engine) : Prop where
  counter : e.nextArrival ≤ u64Max
  before : ∀ q x, e.ledger.quote q = some x → x.arrival < e.nextArrival ∨ x.arrival = u64Max
  apart : ∀ q q' x x', e.ledger.quote q = some x → e.ledger.quote q' = some x' →
    x.arrival = x'.arrival → q = q' ∨ x.arrival = u64Max

theorem arrival_of_terms {x x' : Quote} (h : x'.terms = x.terms) : x'.arrival = x.arrival := by
  have : x'.terms.arrival = x.terms.arrival := by rw [h]
  exact this

theorem Numbered.inherits (h : e.Numbered)
    (hquotes : ∀ q x', e'.ledger.quote q = some x' →
      ∃ x, e.ledger.quote q = some x ∧ x'.terms = x.terms)
    (hle : e.nextArrival ≤ e'.nextArrival) (hcounter : e'.nextArrival ≤ u64Max) : e'.Numbered where
  counter := hcounter
  before q x' hx' := by
    obtain ⟨x, hx, hsame⟩ := hquotes q x' hx'
    have := h.before q x hx
    rw [arrival_of_terms hsame]
    omega
  apart q₁ q₂ x₁' x₂' hx₁' hx₂' heq := by
    obtain ⟨x₁, hx₁, hsame₁⟩ := hquotes q₁ x₁' hx₁'
    obtain ⟨x₂, hx₂, hsame₂⟩ := hquotes q₂ x₂' hx₂'
    rw [arrival_of_terms hsame₁] at heq ⊢
    rw [arrival_of_terms hsame₂] at heq
    exact h.apart q₁ q₂ x₁ x₂ hx₁ hx₂ heq

/-- A new quote takes the next number. -/
theorem Numbered.insert {record : Quote} {q : QuoteIdx} {quotes : Slab .quote Quote}
    (h : e.Numbered) (harrival : record.arrival = e.nextArrival)
    (hins : e.ledger.quotes.insert record = some (q, quotes)) :
    Numbered { e with
      ledger := { e.ledger with quotes }, nextArrival := min (e.nextArrival + 1) u64Max } := by
  have hcounter := h.counter
  obtain ⟨hfree, hget⟩ := Slab.get_insert hins
  have hstored : ∀ q' x', Ledger.quote { e.ledger with quotes } q' = some x' →
      q' = q ∧ x'.arrival = e.nextArrival ∨ q' ≠ q ∧ e.ledger.quote q' = some x' := by
    intro q' x' hx'
    have hx' : quotes.get q' = some x' := hx'
    rw [hget] at hx'
    split at hx'
    next heq =>
      obtain rfl := Option.some.inj hx'
      exact .inl ⟨heq, harrival⟩
    next hne => exact .inr ⟨hne, hx'⟩
  refine ⟨by dsimp only; omega, fun q' x' hx' => ?_, fun q₁ q₂ x₁ x₂ hx₁ hx₂ heq => ?_⟩
  · dsimp only
    rcases hstored q' x' hx' with ⟨-, hnew⟩ | ⟨-, hold⟩
    · omega
    · have := h.before q' x' hold
      omega
  · rcases hstored q₁ x₁ hx₁ with ⟨rfl, hnew₁⟩ | ⟨hne₁, hold₁⟩
    · rcases hstored q₂ x₂ hx₂ with ⟨rfl, -⟩ | ⟨-, hold₂⟩
      · exact .inl rfl
      · have := h.before q₂ x₂ hold₂
        omega
    · rcases hstored q₂ x₂ hx₂ with ⟨rfl, hnew₂⟩ | ⟨-, hold₂⟩
      · have := h.before q₁ x₁ hold₁
        omega
      · exact h.apart q₁ q₂ x₁ x₂ hold₁ hold₂ heq

/-- Publishing writes no quote. -/
theorem quote_publishSelection {w : Work} {r : ReqIdx} {i : Nat} (q : QuoteIdx) :
    (w.publishSelection r i now).1.quote q = w.1.quote q := by
  unfold Work.publishSelection
  split
  · rfl
  split
  · rfl
  split <;> rfl

theorem Numbered.submitQuote {maker i price size expiresAt : Nat} {r : ReqIdx} (hnum : e.Numbered)
    (h : e.Sane) : (e.submitQuote maker r i price size expiresAt now events).2.1.Numbered := by
  have hcounter := hnum.counter
  rcases h.submitQuote_cases (r := r) (i := i) with ⟨err, heq⟩ |
    ⟨standing, contribution, y, leg, w₁, hc, hw, hout⟩
  · rw [heq]
    exact hnum
  have hwithdrawn : Inherits e.ledger w₁.1 :=
    hw ▸ (Ledger.writes_withdrawStanding (w := (e.ledger, events))).inherits
  rcases hout with ⟨err, heq⟩ | ⟨q, c, l₂, hopen, heq⟩
  · rw [heq]
    exact hnum.inherits hwithdrawn.quotes (show e.nextArrival ≤ min _ _ by omega)
      (show min _ _ ≤ u64Max by omega)
  · rw [heq]
    obtain ⟨quotes, hins, hrest⟩ := Ledger.openQuoteReserving_writes hopen
    have h₁ : Numbered { e with ledger := w₁.1 } :=
      hnum.inherits hwithdrawn.quotes (Nat.le_refl _) hcounter
    refine Numbered.inherits (h₁.insert rfl hins) (fun q' x' hx' => ?_) (Nat.le_refl _)
      (show min _ _ ≤ u64Max by omega)
    have hx' : Ledger.quote (Work.publishSelection (l₂.linkQuote r i q, w₁.2) r i now).1 q' =
      some x' := hx'
    rw [quote_publishSelection] at hx'
    exact (hrest.trans Ledger.writes_linkQuote).inherits.quotes q' x' hx'

theorem Numbered.perform (hnum : e.Numbered) (h : e.Sane) :
    (e.perform command now events).2.1.Numbered := by
  by_cases hquote : ∃ maker r leg price size expiresAt,
      command = .submitQuote maker r leg price size expiresAt
  · obtain ⟨maker, r, leg, price, size, expiresAt, rfl⟩ := hquote
    exact hnum.submitQuote h
  by_cases hrequest : ∃ requester deadline legs, command = .submitRequest requester deadline legs
  · obtain ⟨requester, deadline, legs, rfl⟩ := hrequest
    rcases h.submitRequest_cases with ⟨err, heq⟩ | ⟨total, r, c, l₂, hopen, heq⟩
    · rw [Engine.perform, heq]
      exact hnum
    · rw [Engine.perform, heq]
      obtain ⟨requests, -, hrest⟩ := Ledger.openRequestReserving_writes hopen
      exact hnum.inherits hrest.inherits.quotes (Nat.le_refl _) hnum.counter
  · have hquote : ∀ maker r leg price size expiresAt,
        command ≠ .submitQuote maker r leg price size expiresAt :=
      fun maker r leg price size expiresAt heq =>
        hquote ⟨maker, r, leg, price, size, expiresAt, heq⟩
    have hledger : Inherits e.ledger (e.perform command now events).2.1.ledger :=
      (writes_perform hquote fun requester deadline legs heq =>
        hrequest ⟨requester, deadline, legs, heq⟩).inherits
    have hcounter : (e.perform command now events).2.1.nextArrival = e.nextArrival :=
      nextArrival_perform hquote
    exact hnum.inherits hledger.quotes hcounter.ge (hcounter.trans_le hnum.counter)

theorem nextArrival_normalised (e : Engine) (input : Input) :
    (e.normalisedFor input).nextArrival = e.nextArrival := by
  unfold Engine.normalisedFor Engine.normaliseAll
  generalize e.touchedAccounts input.command = accounts
  induction accounts generalizing e with
  | nil => rfl
  | cons account accounts ih => exact ih _

/-- Every reachable engine has numbered its quotes. -/
theorem numbered_of_reachable (h : Reachable config e) : e.Numbered := by
  induction h with
  | new h =>
      obtain ⟨-, rfl⟩ := new_eq_ok h
      exact ⟨Nat.zero_le _, by simp [quote_new], by simp [quote_new]⟩
  | @step e h input ih =>
      have hsane := sane_of_reachable h
      have hsame : Ledger.SameRecords e.ledger (e.normalisedFor input).ledger :=
        hsane.sameRecords_normaliseAll _
      have hn : (e.normalisedFor input).Numbered :=
        ih.inherits hsame.inherits.quotes (nextArrival_normalised e input).ge
          ((nextArrival_normalised e input).trans_le ih.counter)
      exact hn.perform (hsane.normalised input.command input.now).sane

-- ============================================================================
-- The best quote
-- ============================================================================

variable {r : ReqIdx} {i : Nat} {y : Request}

/-- What is on a leg of an open request, as the scan meets it. -/
theorem Sane.walkLeg (h : e.Sane) (hr : e.ledger.request r = some y) (hopened : y.state = .opened)
    (hleg : y.leg i = some leg) (q : QuoteIdx) (x : Quote) :
    (q, x) ∈ e.ledger.walkLeg leg ↔ e.ledger.QuotedOn r i q x := by
  obtain ⟨qs, hchain, -, hwalk, hall⟩ :=
    Ledger.walkLeg_of_chained h.healthy.chained hr hopened hleg
  constructor
  · intro hv
    have hmem : q ∈ qs := hwalk ▸ List.mem_map_of_mem hv
    obtain ⟨x', hx', hxr, hxi⟩ := hchain.stored hmem
    have hx : e.ledger.quote q = some x := hall _ hv
    have hx' : e.ledger.quote q = some x' := hx'
    rw [hx, Option.some.injEq] at hx'
    exact ⟨hx, hx' ▸ hxr, hx' ▸ hxi⟩
  · rintro ⟨hx, hxr, hxi⟩
    have hmem : q ∈ qs := (hchain.mem q).mpr ⟨by simp, x, hx, hxr, hxi⟩
    rw [← hwalk] at hmem
    obtain ⟨⟨q', x'⟩, hv, rfl⟩ := List.mem_map.mp hmem
    have hx' : e.ledger.quote q' = some x' := hall _ hv
    have hx : e.ledger.quote q' = some x := hx
    rw [hx, Option.some.injEq] at hx'
    exact hx' ▸ hv

/-- A quote on a leg is large enough for it. -/
theorem Sane.size_le {q : QuoteIdx} {x : Quote} (h : e.Sane) (hr : e.ledger.request r = some y)
    (hleg : y.leg i = some leg) (hq : e.ledger.QuotedOn r i q x) : leg.size ≤ x.size := by
  obtain ⟨spec, hspec, hfair⟩ := h.healthy.coherent.offer q x.offer (Ledger.market_offers hq.stored)
  rw [Ledger.legOf_market, hq.request, hq.leg, hr, Option.bind_some, hleg, Option.map_some,
    Option.some.injEq] at hspec
  rw [← hspec] at hfair
  exact hfair.size

/-- The scan of a leg of an open request finds its best quote, or says why there is
    none. -/
theorem Sane.bestOf (h : e.Sane) (hnum : e.Numbered) (hr : e.ledger.request r = some y)
    (hopened : y.state = .opened) (hleg : y.leg i = some leg) (now : Nat) :
    BestOf e.ledger r i leg now (e.ledger.bestOnLeg leg now) := by
  have hwalk := h.walkLeg hr hopened hleg
  have hscan : Scanned leg now ([] ++ e.ledger.walkLeg leg) _ := scanned_foldl _ scanned_nil
  rw [List.nil_append] at hscan
  unfold Ledger.bestOnLeg
  dsimp only
  generalize (e.ledger.walkLeg leg).foldl (Scan.visit leg now) {} = s at hscan
  have hbest := hscan.best
  split
  next b hb =>
    rw [hb] at hbest
    generalize s.bestArrival = arrival at hbest
    cases hbest with
    | @chosen v hv helig hleast =>
      obtain ⟨q, x⟩ := v
      show BestOf _ r i leg now (.ok ⟨q, x.price⟩)
      refine .found ((hwalk q x).mp hv) helig (fun q' x' hq' => hleast _ ((hwalk q' x').mpr hq')) ?_
      intro q' x' hq' helig' hle
      have hge : x.Precedes x' := hleast _ ((hwalk q' x').mpr hq') helig'
      have harrival : x'.arrival = x.arrival := by
        unfold Quote.Precedes at hle hge
        omega
      rcases hnum.apart q' q x' x hq'.stored ((hwalk q x).mp hv).stored harrival with heq | hmax
      · exact .inl heq
      · exact .inr (harrival ▸ hmax)
  next hb =>
    rw [hb] at hbest
    generalize s.bestArrival = arrival at hbest
    cases hbest with
    | missing hnone =>
      have hnone : ∀ q x, e.ledger.QuotedOn r i q x → x.isEligible leg now = false :=
        fun q x hq => hnone _ ((hwalk q x).mpr hq)
      have hlive := hscan.live
      have hbig := hscan.bigEnough
      unfold Scan.reason
      rw [hscan.quote, Bool.not_not]
      split
      next hempty =>
        refine .noQuotes fun q x hq => ?_
        have hv := (hwalk q x).mpr hq
        rw [List.isEmpty_iff.mp hempty] at hv
        cases hv
      next hnonempty =>
        obtain ⟨⟨q, x⟩, hv⟩ := List.exists_mem_of_ne_nil _ (mt List.isEmpty_iff.mpr hnonempty)
        split
        next hdead =>
          refine .allExpired ⟨q, x, (hwalk q x).mp hv⟩ fun q' x' hq' => ?_
          rw [hlive, Bool.not_eq_true', List.any_eq_false] at hdead
          simpa using hdead _ ((hwalk q' x').mpr hq')
        next halive =>
          rw [hlive, Bool.not_eq_true', Bool.not_eq_false, List.any_eq_true] at halive
          obtain ⟨⟨q₁, x₁⟩, hv₁, hlive₁⟩ := halive
          have hq₁ := (hwalk q₁ x₁).mp hv₁
          have hseen : s.sawBigEnough = true := by
            rw [hbig, List.any_eq_true]
            exact ⟨_, hv₁, by simp [show x₁.isLiveAt now = true from hlive₁, h.size_le hr hleg hq₁]⟩
          rw [if_pos hseen]
          exact .outsideLimit ⟨q₁, x₁, hq₁, hlive₁⟩ hnone

-- ============================================================================
-- Refused accepts
-- ============================================================================

/-- Why an accept fails at leg `i`, which it expects filled at `view` or better. -/
inductive LegFails (l : Ledger) (now i : Nat) (leg : Leg) (view : ExpectedFill) : EngineError → Prop where
  | noQuote {reason : NoQuoteReason} (hbest : l.bestOnLeg leg now = .error reason) :
      LegFails l now i leg view (.noEligibleQuote i reason)
  | stale {best : Selection} (hbest : l.bestOnLeg leg now = .ok best)
      (hdear : view.price < best.price) :
      LegFails l now i leg view (.presentationStale i view.price best.price)

/-- The `j`-th leg fails; the legs are counted from `k`. -/
def FailsAt (l : Ledger) (now k : Nat) (legs : List Leg) (expected : List ExpectedFill) (j : Nat)
    (err : EngineError) : Prop :=
  ∃ leg view, legs[j]? = some leg ∧ expected[j]? = some view ∧ LegFails l now (k + j) leg view err

/-- The first leg that fails, fails with `err`. -/
def FailsFirst (l : Ledger) (now k : Nat) (legs : List Leg) (expected : List ExpectedFill)
    (err : EngineError) : Prop :=
  ∃ j, FailsAt l now k legs expected j err ∧
    ∀ j' < j, ∀ err', ¬ FailsAt l now k legs expected j' err'

variable {l : Ledger} {k total : Nat} {legs : List Leg} {view : ExpectedFill}
  {expected : List ExpectedFill} {plan : List Selection} {err err' : EngineError}

theorem LegFails.unique (h : LegFails l now i leg view err) (h' : LegFails l now i leg view err') :
    err = err' := by
  cases h with
  | noQuote hbest =>
      cases h' with
      | noQuote hbest' =>
          rw [hbest, Except.error.injEq] at hbest'
          rw [hbest']
      | stale hbest' => rw [hbest] at hbest'; cases hbest'
  | stale hbest =>
      cases h' with
      | noQuote hbest' => rw [hbest] at hbest'; cases hbest'
      | stale hbest' =>
          rw [hbest, Except.ok.injEq] at hbest'
          rw [hbest']

theorem FailsFirst.unique (h : FailsFirst l now k legs expected err)
    (h' : FailsFirst l now k legs expected err') : err = err' := by
  obtain ⟨j, hj, hbefore⟩ := h
  obtain ⟨j', hj', hbefore'⟩ := h'
  have heq : j = j' := by
    rcases Nat.lt_trichotomy j j' with hlt | heq | hlt
    · exact absurd hj (hbefore' j hlt err)
    · exact heq
    · exact absurd hj' (hbefore j' hlt err')
  subst heq
  obtain ⟨leg, view, hleg, hview, hfails⟩ := hj
  obtain ⟨leg', view', hleg', hview', hfails'⟩ := hj'
  rw [hleg, Option.some.injEq] at hleg'
  rw [hview, Option.some.injEq] at hview'
  subst hleg' hview'
  exact hfails.unique hfails'

/-- The legs before it pass, and then one fails. -/
theorem FailsFirst.later (hpass : ∀ err, ¬ LegFails l now k leg view err)
    (h : FailsFirst l now (k + 1) legs expected err) :
    FailsFirst l now k (leg :: legs) (view :: expected) err := by
  obtain ⟨j, ⟨leg', view', hleg, hview, hfails⟩, hbefore⟩ := h
  refine ⟨j + 1, ⟨leg', view', hleg, hview, by rwa [show k + (j + 1) = k + 1 + j by omega]⟩, ?_⟩
  rintro j' hlt err' ⟨leg₁, view₁, hleg₁, hview₁, hfails₁⟩
  cases j' with
  | zero =>
      obtain rfl : leg = leg₁ := by simpa using hleg₁
      obtain rfl : view = view₁ := by simpa using hview₁
      exact hpass err' hfails₁
  | succ j' =>
      refine hbefore j' (by omega) err' ⟨leg₁, view₁, hleg₁, hview₁, ?_⟩
      rwa [show k + (j' + 1) = k + 1 + j' by omega] at hfails₁

theorem FailsFirst.here (h : LegFails l now k leg view err) :
    FailsFirst l now k (leg :: legs) (view :: expected) err :=
  ⟨0, ⟨leg, view, rfl, rfl, h⟩, fun _ hlt => absurd hlt (Nat.not_lt_zero _)⟩

/-- A leg filled at its best quote, no dearer than expected. -/
structure LegFills (l : Ledger) (now : Nat) (leg : Leg) (view : ExpectedFill) (sel : Selection) :
    Prop where
  best : l.bestOnLeg leg now = .ok sel
  expected : sel.price ≤ view.price

variable {sel : Selection}

theorem LegFills.passes (h : LegFills l now leg view sel) : ¬ LegFails l now i leg view err := by
  intro hfails
  cases hfails with
  | noQuote hbest => rw [h.best] at hbest; cases hbest
  | stale hbest hdear =>
      rw [h.best, Except.ok.injEq] at hbest
      have := h.expected
      rw [hbest] at this
      omega

/-- A plan fills every leg at its best quote. -/
theorem planAccept_ok {plan' : List Selection} {total' : Nat}
    (h : e.planAccept now k legs expected plan total = .ok (plan', total')) :
    ∃ sels, plan' = plan ++ sels ∧ sels.length = legs.length ∧
      ∀ (j : Nat) leg, legs[j]? = some leg → ∃ view sel, expected[j]? = some view ∧
        view.leg = k + j ∧ sels[j]? = some sel ∧ LegFills e.ledger now leg view sel := by
  induction legs generalizing k expected plan total with
  | nil =>
      simp only [Engine.planAccept, Except.ok.injEq, Prod.mk.injEq] at h
      exact ⟨[], by simp [h.1], rfl, by simp⟩
  | cons leg legs ih =>
      unfold Engine.planAccept at h
      split at h
      · cases h
      next sel hbest =>
      split at h
      · cases h
      next view expected =>
      split at h
      · cases h
      next hview =>
      split at h
      · cases h
      next hdear =>
      split at h
      · cases h
      obtain ⟨sels, hplan, hlen, hrest⟩ := ih h
      refine ⟨sel :: sels, by simp [hplan], by simp [hlen], fun j leg' hleg' => ?_⟩
      cases j with
      | zero =>
          obtain rfl : leg = leg' := by simpa using hleg'
          exact ⟨view, sel, rfl, by simpa using hview, rfl, hbest, Nat.not_lt.mp hdear⟩
      | succ j =>
          obtain ⟨view', sel', hview', hleg, hsel, hfills⟩ := hrest j leg' hleg'
          exact ⟨view', sel', hview', by omega, hsel, hfills⟩

/-- PLAN, with views that name their legs and a budget that covers every limit:
    it fails at the first leg that does, or comes out within the budget. -/
theorem planAccept_cases (hlen : expected.length = legs.length)
    (hviews : ∀ j view, expected[j]? = some view → view.leg = k + j)
    (hbudget : total + (legs.map fun leg => leg.size * leg.limit).sum ≤ u64Max)
    (hlimit : ∀ leg ∈ legs, ∀ sel, e.ledger.bestOnLeg leg now = .ok sel → sel.price ≤ leg.limit) :
    (∃ err, e.planAccept now k legs expected plan total = .error err ∧
      FailsFirst e.ledger now k legs expected err) ∨
    ∃ plan' total', e.planAccept now k legs expected plan total = .ok (plan', total') ∧
      total' ≤ total + (legs.map fun leg => leg.size * leg.limit).sum := by
  induction legs generalizing k expected plan total with
  | nil => exact .inr ⟨plan, total, rfl, by simp⟩
  | cons leg legs ih =>
      cases expected with
      | nil => cases hlen
      | cons view expected =>
      have hview : view.leg = k := hviews 0 view rfl
      rw [List.map_cons, List.sum_cons] at hbudget
      unfold Engine.planAccept
      cases hbest : e.ledger.bestOnLeg leg now with
      | error reason => exact .inl ⟨_, rfl, .here (.noQuote hbest)⟩
      | ok sel =>
      simp only [hview, ne_eq, not_true_eq_false, if_false]
      by_cases hdear : view.price < sel.price
      · rw [if_pos hdear]
        exact .inl ⟨_, rfl, .here (.stale hbest hdear)⟩
      rw [if_neg hdear]
      have hle : leg.size * sel.price ≤ leg.size * leg.limit :=
        Nat.mul_le_mul_left _ (hlimit leg (by simp) sel hbest)
      have hsum : (Size.requesterContribution leg.size sel.price).bind
          (fun cost => checkedAdd total cost) = some (total + leg.size * sel.price) := by
        refine Option.bind_eq_some_iff.mpr ⟨leg.size * sel.price, ?_, ?_⟩
        · exact Size.checkedMul_eq_some.mpr ⟨by omega, rfl⟩
        · exact checkedAdd_eq_some.mpr ⟨by omega, rfl⟩
      simp only [hsum]
      have hfills : LegFills e.ledger now leg view sel := ⟨hbest, Nat.not_lt.mp hdear⟩
      have hviews' : ∀ j view, expected[j]? = some view → view.leg = k + 1 + j := by
        intro j view' hj
        have := hviews (j + 1) view' hj
        omega
      have hbudget' : total + leg.size * sel.price +
          (legs.map fun leg => leg.size * leg.limit).sum ≤ u64Max := by omega
      rcases ih (by simpa using hlen) hviews' hbudget'
          (fun leg' hleg' => hlimit leg' (by simp [hleg'])) with
        ⟨err, heq, hfails⟩ | ⟨plan', total', heq, htotal⟩
      · exact .inl ⟨err, heq, hfails.later fun _ => hfills.passes⟩
      · refine .inr ⟨plan', total', heq, ?_⟩
        rw [List.map_cons, List.sum_cons]
        omega

/-- The claim of an open request covers all that its legs may cost. -/
theorem Sane.claim_covers {c : ResIdx} (h : e.Sane) (hr : e.ledger.request r = some y)
    (hopened : y.state = .opened) (hc : y.claim = some c) :
    ∃ res, e.ledger.reservation c = some res ∧
      res.amount = (y.legs.map fun leg => leg.size * leg.limit).sum := by
  have ha := Ledger.market_auctions hr
  have howner : e.ledger.book.ownerClaim (.request r) = some (some c) := by
    rw [Ledger.ownerClaim_book]
    simp [Ledger.ownerClaim, hr, hc]
  obtain ⟨k, hk, hkowner⟩ := h.healthy.intact.balanced.holder _ _ howner
  obtain ⟨expiry, hs⟩ := h.healthy.reserved_of_opened ha hopened hk hkowner
  obtain ⟨a, ha', hback⟩ := h.healthy.coherent.auctioned c k r hk hkowner
  rw [ha, Option.some.injEq] at ha'
  subst ha'
  obtain ⟨-, -, hamount⟩ := hback.reserved expiry hs
  obtain ⟨res, hres, rfl⟩ := Ledger.reservation_of_market hk
  refine ⟨res, hres, ?_⟩
  rw [show res.amount = y.auction.total from hamount, Auction.total, Request.auction, List.map_map]
  rfl

/-- An open request before its deadline still holds its claim. -/
theorem Sane.claim_of_opened (h : e.Sane) (hbacked : e.market.Backed now)
    (hr : e.ledger.request r = some y) (hopened : y.state = .opened) (hlive : now < y.deadline) :
    ∃ c, y.claim = some c := by
  obtain ⟨c, k, hk, howner⟩ := hbacked.auctions r _ (Ledger.market_auctions hr) hopened hlive
  obtain ⟨res, hres, rfl⟩ := Ledger.reservation_of_market hk
  have hheld := h.healthy.intact.balanced.held c _ (Ledger.book_claims hres)
  rw [Ledger.ownerClaim_book, howner] at hheld
  exact ⟨c, by simpa [Ledger.ownerClaim, hr] using hheld⟩

/-- PLAN and CHECK of an accept with its conditions in order: it fails at the first
    leg that does, or for want of room, or passes. -/
theorem Sane.checkAccept_cases {c : ResIdx} (events : EventBuffer) (h : e.Sane)
    (hclaim : y.claim = some c) (hr : e.ledger.request r = some y) (hopened : y.state = .opened) (hlive : now < y.deadline)
    (hlen : expected.length = y.nLegs)
    (hviews : ∀ (j : Nat) view, expected[j]? = some view → view.leg = j) :
    (∃ err, e.checkAccept r expected now events = .error err ∧
      FailsFirst e.ledger now 0 y.legs expected err) ∨
    (∀ err, ¬ FailsFirst e.ledger now 0 y.legs expected err) ∧
      ((events.headroom (y.nLegs * e.config.maxQuotesPerLeg + 1) = false ∧
          e.checkAccept r expected now events = .error .eventBufferFull) ∨
        events.headroom (y.nLegs * e.config.maxQuotesPerLeg + 1) = true ∧
          ∃ acc, e.checkAccept r expected now events = .ok acc) := by
  obtain ⟨res, hres, hamount⟩ := h.claim_covers hr hopened hclaim
  have hfair := h.healthy.coherent.fair r _ (Ledger.market_auctions hr)
  have hbudget : 0 + (y.legs.map fun leg => leg.size * leg.limit).sum ≤ u64Max := by
    have hfits := hfair.fits
    rw [Auction.total, Request.auction, List.map_map] at hfits
    rw [Nat.zero_add]
    exact hfits
  have hlimit : ∀ leg ∈ y.legs, ∀ sel, e.ledger.bestOnLeg leg now = .ok sel →
      sel.price ≤ leg.limit := by
    intro leg hmem sel hsel
    obtain ⟨i, hi⟩ := List.mem_iff_getElem?.mp hmem
    obtain ⟨f, rfl, -, -, -, hle, -⟩ := h.healthy.bestOnLeg hr hopened hi hsel
    exact hle
  unfold Engine.checkAccept
  simp only [hr, hopened, ne_eq, not_true_eq_false, if_false, Nat.not_le.mpr hlive, hlen]
  have hviews : ∀ (j : Nat) view, expected[j]? = some view → view.leg = 0 + j := by
    simpa only [Nat.zero_add] using hviews
  rcases planAccept_cases hlen hviews hbudget hlimit with
    ⟨err, heq, hfails⟩ | ⟨plan, total, heq, htotal⟩
  · rw [heq]
    exact .inl ⟨err, rfl, hfails⟩
  rw [heq]
  obtain ⟨sels, -, -, hfills⟩ := planAccept_ok heq
  have hnone : ∀ err, ¬ FailsFirst e.ledger now 0 y.legs expected err := by
    rintro err ⟨j, ⟨leg, view, hleg, hview, hfails⟩, -⟩
    obtain ⟨view', sel, hview', -, -, hfill⟩ := hfills j leg hleg
    rw [hview, Option.some.injEq] at hview'
    subst hview'
    exact hfill.passes hfails
  refine .inr ⟨hnone, ?_⟩
  simp only [hclaim, hres]
  rw [if_neg (by omega)]
  cases hroom : events.headroom (y.nLegs * e.config.maxQuotesPerLeg + 1) with
  | false => exact .inl ⟨rfl, by simp⟩
  | true =>
      obtain ⟨fills, hmap, rfl, -, -, hwins⟩ := h.healthy.planAccept (i := 0) hr hopened
        (fun j leg hj => by rw [Nat.zero_add]; exact hj) (Nat.zero_le _) heq
      have hbuild := Ledger.buildIntent_eq (l := e.ledger) hmap fun f hf => by
        obtain ⟨j, hj⟩ := List.mem_iff_getElem?.mp hf
        exact (hwins j f hj).stored
      rw [List.nil_append, hbuild]
      exact .inr ⟨rfl, _, rfl⟩

-- ============================================================================
-- Accepts
-- ============================================================================

variable {input : Input} {last : Nat}

theorem failsFirst_congr {l' : Ledger} (h : ∀ leg, l'.bestOnLeg leg now = l.bestOnLeg leg now) :
    FailsFirst l' now k legs expected err ↔ FailsFirst l now k legs expected err := by
  have hleg : ∀ i leg view err, LegFails l' now i leg view err ↔ LegFails l now i leg view err := by
    intro i leg view err
    constructor
    · rintro (hbest | ⟨hbest, hdear⟩)
      · exact .noQuote (h leg ▸ hbest)
      · exact .stale (h leg ▸ hbest) hdear
    · rintro (hbest | ⟨hbest, hdear⟩)
      · exact .noQuote ((h leg).trans hbest)
      · exact .stale ((h leg).trans hbest) hdear
  simp only [FailsFirst, FailsAt, hleg]

theorem Sane.sameRecords_normalisedFor (h : e.Sane) (input : Input) :
    Ledger.SameRecords e.ledger (e.normalisedFor input).ledger := h.sameRecords_normaliseAll _

theorem Sane.bestOnLeg_normalisedFor (h : e.Sane) (input : Input) (leg : Leg) (now : Nat) :
    (e.normalisedFor input).ledger.bestOnLeg leg now = e.ledger.bestOnLeg leg now :=
  (h.sameRecords_normalisedFor input).bestOnLeg leg now

/-- Leg `i` filled, as `fill`, at its best quote `x`. -/
structure FillsBest (e e' : Engine) (now : Nat) (r : ReqIdx) (i : Nat) (leg : Leg)
    (view : ExpectedFill) (fill : IntentLeg) (sel : Selection) (x : Quote) : Prop where
  best : e.ledger.bestOnLeg leg now = .ok sel
  quoted : e.ledger.QuotedOn r i sel.quote x
  fill : fill = ⟨leg.contract, leg.side, leg.size, x.maker, sel.price, x.expiresAt⟩
  expected : sel.price ≤ view.price
  limit : sel.price ≤ leg.limit
  consumed : ∃ x', e'.ledger.quote sel.quote = some x' ∧ x'.terms = x.terms ∧ x'.state = .consumed

theorem checkAccept_ok {acc : Acceptance} (h : e.checkAccept r expected now events = .ok acc) :
    e.ledger.request r = some acc.record ∧ acc.record.state = .opened ∧
      expected.length = acc.record.nLegs ∧
      ∃ total, e.planAccept now 0 acc.record.legs expected [] 0 = .ok (acc.plan, total) := by
  unfold Engine.checkAccept at h
  split at h
  · cases h
  next record hrecord =>
  split at h
  · cases h
  next hopened =>
  split at h
  · cases h
  split at h
  · cases h
  next hlen =>
  split at h
  · cases h
  next plan total hplan =>
  iterate 4
    split at h
    · cases h
  split at h
  · cases h
  · cases h
    exact ⟨hrecord, by simpa using hopened, by simpa using hlen, total, hplan⟩

/-- A committed winner is consumed. -/
theorem consumed_of_claim {l : Ledger} {max : Nat} {q : QuoteIdx} {c : ResIdx} {k : Claim} {r' : ReqIdx}
    (h : l.Healthy max none) (hk : l.market.claims c = some k) (howner : k.owner = .quote q)
    (hstatus : k.status = .committed r') : ∃ x, l.quote q = some x ∧ x.state = .consumed := by
  obtain ⟨o, spec, ho, -, hback⟩ := h.coherent.offered c k q hk howner
  obtain ⟨x, hx, rfl⟩ := Ledger.quote_of_market ho
  exact ⟨x, hx, (hback.committed r' hstatus).1⟩

theorem Sane.accepted {acc : Acceptance} (h : e.Sane)
    (hcheck : e.checkAccept r expected now events = .ok acc) :
    ∃ fills, Ledger.Checked e r now events fills acc ∧
      Ledger.Accepted e.config.maxQuotesPerLeg r now acc.record.auction acc.total
        (Ledger.intentOf r acc) fills (e.ledger, events) (e.commitAccept r acc now events) := by
  obtain ⟨fills, hc⟩ := h.healthy.checkAccept hcheck
  obtain ⟨res, hres, htotal⟩ := hc.covered
  exact ⟨fills, hc, h.healthy.commitAccept h.config.quotesPerLeg hc.record hc.opened hc.claim hres
    htotal hc.plan (fun j f hj => (hc.wins j f hj).fits) hc.room⟩

/-- An accept that passes its checks fills every leg at its best quote. -/
theorem Sane.fillsBest {acc : Acceptance} (h : e.Sane) (hbacked : e.market.Backed now)
    (hcheck : e.checkAccept r expected now events = .ok acc) :
    acc.intent.length = acc.record.nLegs ∧ ∀ i leg, acc.record.leg i = some leg →
      ∃ view fill sel x, expected[i]? = some view ∧ acc.intent[i]? = some fill ∧
        FillsBest e (e.done (e.commitAccept r acc now events)).2.1 now r i leg view fill sel x := by
  obtain ⟨hrecord, hopened, -, total, hplan⟩ := checkAccept_ok hcheck
  obtain ⟨sels, hsels, hlen, hfills⟩ := planAccept_ok hplan
  obtain rfl : sels = acc.plan := by simpa using hsels.symm
  obtain ⟨fills, hc, hacc⟩ := h.accepted hcheck
  obtain ⟨ks, hadds, hks⟩ := hacc.adds
  have hks := hks hbacked fun f hf => by
    obtain ⟨j, hj⟩ := List.mem_iff_getElem?.mp hf
    exact (hc.wins j f hj).live
  have hlength : fills.length = acc.record.nLegs := by
    have := congrArg List.length hc.legs
    simpa [Request.auction, Request.nLegs] using this
  refine ⟨by rw [hc.intent, List.length_map, hlength], fun i leg hleg => ?_⟩
  obtain ⟨view, sel, hview, -, hsel, hbest⟩ := hfills i leg hleg
  rw [hc.plan, List.getElem?_map] at hsel
  obtain ⟨f, hf, rfl⟩ := Option.map_eq_some_iff.mp hsel
  obtain ⟨x, hx, hoffer⟩ := (hc.wins i f hf).stored
  have hfits := (hc.wins i f hf).fits
  have hspec : f.leg = leg.spec := by
    have hlegs := congrArg (·[i]?) hc.legs
    simp only [Request.auction, List.getElem?_map, hf, Option.map_some,
      show acc.record.legs[i]? = some leg from hleg] at hlegs
    exact Option.some.inj hlegs
  refine ⟨view, f.intentLeg, f.selection, x, hview, by rw [hc.intent, List.getElem?_map, hf]; rfl,
    hbest.best, ⟨hx, ?_, ?_⟩, ?_, hbest.expected, ?_, ?_⟩
  · exact (congrArg Offer.request hoffer).trans hfits.onLeg.request
  · exact (congrArg Offer.leg hoffer).trans hfits.onLeg.leg
  · rw [Fill.intentLeg, Fill.selection, hspec, ← hoffer]
    rfl
  · have := (hc.wins i f hf).price
    rw [hspec] at this
    exact this
  · have hmem : f.claim r ∈ ks ++ [Ledger.requesterClaim r acc.record.auction acc.total] := by
      rw [hks]
      exact List.mem_append_left _ (List.mem_map_of_mem (List.mem_of_getElem? hf))
    obtain ⟨hstatus, c, hk⟩ := hadds.added _ hmem
    obtain ⟨x', hx', hconsumed⟩ := consumed_of_claim hacc.healthy hk rfl hstatus
    have hinherits : Inherits e.ledger (e.acceptRequest r expected now events).2.1.ledger :=
      writes_acceptRequest.inherits
    rw [acceptRequest, hcheck] at hinherits
    obtain ⟨x₀, hx₀, hterms⟩ := hinherits.quotes _ x' hx'
    have hx₀ : e.ledger.quote f.quote = some x₀ := hx₀
    rw [hx, Option.some.injEq] at hx₀
    exact ⟨x', hx', hx₀ ▸ hterms, hconsumed⟩

theorem ReachableAt.backed_normalisedFor (h : ReachableAt config last e) (input : Input)
    (hnow : last ≤ input.now) : (e.normalisedFor input).market.Backed input.now := by
  have hsteps : Market.Steps input.now .calm e.market (e.normalisedFor input).market :=
    (h.sane.normalised input.command input.now).steps .calm
  have hcoherent : e.market.Coherent Scope.calm.filled := h.sane.healthy.coherent
  exact (h.backed.mono hnow).steps hcoherent hsteps

/-- What a fill of the normalised engine is on the engine before. -/
theorem Sane.fillsBest_of_normalisedFor {fill : IntentLeg} {x : Quote} (h : e.Sane) (input : Input)
    (hfill : FillsBest (e.normalisedFor input) e' now r i leg view fill sel x) :
    ∃ x₀, FillsBest e e' now r i leg view fill sel x₀ := by
  obtain ⟨x₀, hx₀, heq⟩ := (h.sameRecords_normalisedFor input).quote hfill.quoted.stored
  have hmaker : x.maker = x₀.maker := congrArg (fun q => q.maker) heq
  have hexpires : x.expiresAt = x₀.expiresAt := congrArg (fun q => q.expiresAt) heq
  have hterms : (x.setClaim none).terms = (x₀.setClaim none).terms := by rw [heq]
  obtain ⟨x', hx', hterms', hconsumed⟩ := hfill.consumed
  exact ⟨x₀, (h.bestOnLeg_normalisedFor input leg now).symm.trans hfill.best,
    ⟨hx₀, (congrArg (fun q => q.request) heq).symm.trans hfill.quoted.request,
      (congrArg (fun q => q.leg) heq).symm.trans hfill.quoted.leg⟩,
    by rw [hfill.fill, hmaker, hexpires], hfill.expected, hfill.limit,
    x', hx', hterms'.trans hterms, hconsumed⟩

/-- An accept that succeeds fills every leg of an open request at its best quote. -/
theorem ReachableAt.accept_fills (h : ReachableAt config last e)
    (hcommand : input.command = .acceptRequest r expected) (hnow : last ≤ input.now)
    (hok : (e.answer input).1 = .ok ()) :
    ∃ y intent, e.ledger.request r = some y ∧ y.state = .opened ∧
      Event.submitIntent r (Nonce.of r) y.requester intent ∈ e.emits input ∧
      intent.length = y.nLegs ∧ ∀ i leg, y.leg i = some leg →
        ∃ view fill sel x, expected[i]? = some view ∧ intent[i]? = some fill ∧
          FillsBest e (e.step input) input.now r i leg view fill sel x := by
  have hn : (e.normalisedFor input).Sane := (h.sane.normalised input.command input.now).sane
  have hanswer : e.answer input = (e.normalisedFor input).acceptRequest r expected input.now
      (.withCapacity input.capacity) := by
    rw [Engine.answer, Engine.apply, normalisedFor, hcommand]
    rfl
  rw [hanswer, acceptRequest] at hok
  split at hok
  · cases hok
  next acc hcheck =>
  obtain ⟨hrecord, hopened, -⟩ := checkAccept_ok hcheck
  obtain ⟨fills, -, hacc⟩ := hn.accepted hcheck
  obtain ⟨hlength, hfills⟩ := hn.fillsBest (h.backed_normalisedFor input hnow) hcheck
  obtain ⟨y₀, hy₀, hbare⟩ := (h.sane.sameRecords_normalisedFor input).request hrecord
  have hstate : y₀.state = acc.record.state := congrArg (fun y => y.state) hbare.symm
  have hrequester : y₀.requester = acc.record.requester := congrArg (fun y => y.requester) hbare.symm
  have hlegs : y₀.legs = acc.record.legs := congrArg (fun y => y.legs) hbare.symm
  refine ⟨y₀, acc.intent, hy₀, hstate.trans hopened, ?_, ?_, fun i leg hleg => ?_⟩
  · obtain ⟨b, -, hevents⟩ := hacc.events
    rw [Engine.emits, hanswer, acceptRequest, hcheck, hrequester]
    show _ ∈ ((e.normalisedFor input).commitAccept r acc input.now _).2.events
    rw [hevents]
    exact List.mem_append_right _ (List.mem_singleton.mpr rfl)
  · rw [hlength, Request.nLegs, Request.nLegs, hlegs]
  · have hleg : acc.record.leg i = some leg := by
      rw [Request.leg, ← hlegs]
      exact hleg
    obtain ⟨view, fill, sel, x, hview, hfill, hbest⟩ := hfills i leg hleg
    obtain ⟨x₀, hbest⟩ := h.sane.fillsBest_of_normalisedFor input hbest
    refine ⟨view, fill, sel, x₀, hview, hfill, ?_⟩
    rw [Engine.step, hanswer, acceptRequest, hcheck]
    exact hbest

/-- An accept with its conditions in order is refused at the first leg that fails, and
    only there. -/
theorem ReachableAt.accept_error_iff (h : ReachableAt config last e)
    (hcommand : input.command = .acceptRequest r expected) (hnow : last ≤ input.now)
    (hr : e.ledger.request r = some y) (hopened : y.state = .opened) (hlive : input.now < y.deadline)
    (hlen : expected.length = y.nLegs)
    (hviews : ∀ (j : Nat) view, expected[j]? = some view → view.leg = j)
    (hroom : y.nLegs * e.config.maxQuotesPerLeg + 1 ≤ input.capacity) (err : EngineError) :
    (e.answer input).1 = .error err ↔ FailsFirst e.ledger input.now 0 y.legs expected err := by
  have hn : (e.normalisedFor input).Sane := (h.sane.normalised input.command input.now).sane
  have hanswer : e.answer input = (e.normalisedFor input).acceptRequest r expected input.now
      (.withCapacity input.capacity) := by
    rw [Engine.answer, Engine.apply, normalisedFor, hcommand]
    rfl
  obtain ⟨y', hy', hbare⟩ := (h.sane.sameRecords_normalisedFor input).symm.request hr
  have hstate : y.state = y'.state := congrArg (fun y => y.state) hbare
  have hdeadline : y.deadline = y'.deadline := congrArg (fun y => y.deadline) hbare
  have hlegs : y.legs = y'.legs := congrArg (fun y => y.legs) hbare
  have hcount : y.nLegs = y'.nLegs := congrArg List.length hlegs
  have hconfig : (e.normalisedFor input).config = e.config :=
    (h.sane.normalised input.command input.now).config
  rw [hlegs, ← failsFirst_congr fun leg => h.sane.bestOnLeg_normalisedFor input leg input.now]
  rw [hanswer, acceptRequest]
  obtain ⟨c, hclaim⟩ := hn.claim_of_opened (h.backed_normalisedFor input hnow) hy'
    (hstate.symm.trans hopened) (hdeadline ▸ hlive)
  rcases hn.checkAccept_cases (.withCapacity input.capacity) hclaim hy' (hstate.symm.trans hopened) (hdeadline ▸ hlive)
      (hlen.trans hcount) hviews with
    ⟨err', heq, hfails⟩ | ⟨hnone, ⟨hfull, -⟩ | ⟨-, acc, heq⟩⟩
  · rw [heq]
    constructor
    · intro heq'
      obtain rfl : err' = err := by simpa [refuse] using heq'
      exact hfails
    · intro hfails'
      rw [hfails.unique hfails']
      rfl
  · rw [hconfig, ← hcount] at hfull
    simp [EventBuffer.headroom, EventBuffer.withCapacity, hroom] at hfull
  · rw [heq]
    exact iff_of_false (by simp [done]) (hnone err)

/-- Best execution, from every engine reached at instants that never go back.  The
    scan of a leg finds the best quote of the leg or says why there is none; an
    accept that succeeds fills every leg at its best quote; and one with its
    conditions in order is refused exactly at the first leg that fails. -/
theorem best_execution (h : ReachableAt config last e) :
    (∀ r y i leg now, e.ledger.request r = some y → y.state = .opened → y.leg i = some leg →
      BestOf e.ledger r i leg now (e.ledger.bestOnLeg leg now)) ∧
    (∀ input r expected, input.command = .acceptRequest r expected → last ≤ input.now →
      (e.answer input).1 = .ok () →
        ∃ y intent, e.ledger.request r = some y ∧ y.state = .opened ∧
          Event.submitIntent r (Nonce.of r) y.requester intent ∈ e.emits input ∧
          intent.length = y.nLegs ∧ ∀ i leg, y.leg i = some leg →
            ∃ view fill sel x, expected[i]? = some view ∧ intent[i]? = some fill ∧
              FillsBest e (e.step input) input.now r i leg view fill sel x) ∧
    ∀ input r expected y, input.command = .acceptRequest r expected → last ≤ input.now →
      e.ledger.request r = some y → y.state = .opened → input.now < y.deadline →
      expected.length = y.nLegs →
      (∀ (j : Nat) view, expected[j]? = some view → view.leg = j) →
      y.nLegs * e.config.maxQuotesPerLeg + 1 ≤ input.capacity →
        ∀ err, (e.answer input).1 = .error err ↔
          FailsFirst e.ledger input.now 0 y.legs expected err := by
  refine ⟨fun r y i leg now hr hopened hleg =>
    h.sane.bestOf (numbered_of_reachable h.reachable) hr hopened hleg now, ?_,
    fun input r expected y hcommand hnow hr hopened hlive hlen hviews hroom err =>
      h.accept_error_iff hcommand hnow hr hopened hlive hlen hviews hroom err⟩
  exact fun input r expected hcommand hnow hok => h.accept_fills hcommand hnow hok

/-- An accept that expects better than the best of the second leg is refused, naming
    that leg; the first leg alone would have been filled. -/
theorem best_execution_crowded :
    (crowded.answer ⟨.acceptRequest ⟨0, 0⟩ [⟨0, 545000⟩, ⟨1, 490000⟩], 5, 9⟩).1 =
      .error (.presentationStale 1 490000 500000) := by
  have hfirst : crowded.ledger.bestOnLeg crowdedLeg 5 = .ok ⟨⟨0, 1⟩, 540000⟩ := by decide +kernel
  have hsecond : crowded.ledger.bestOnLeg crowdedSecond 5 = .ok ⟨⟨3, 0⟩, 500000⟩ := by
    decide +kernel
  have hviews : ∀ (j : Nat) view, [(⟨0, 545000⟩ : ExpectedFill), ⟨1, 490000⟩][j]? = some view →
      view.leg = j := by
    rintro (_ | _ | j) view hview
    · rw [← Option.some.inj hview]
    · rw [← Option.some.inj hview]
    · cases hview
  refine ((best_execution reachableAt_crowded).2.2 _ _ _ _ rfl (by decide) crowded_request rfl
    (by decide) rfl hviews (by decide +kernel) _).mpr ⟨1, ⟨crowdedSecond, ⟨1, 490000⟩, rfl, rfl, ?_⟩, ?_⟩
  · exact .stale hsecond (by decide)
  · rintro j' hj' err' ⟨leg, view, hleg, hview, hfails⟩
    obtain rfl := Nat.lt_one_iff.mp hj'
    obtain rfl : crowdedLeg = leg := Option.some.inj hleg
    obtain rfl := Option.some.inj hview
    cases hfails with
    | noQuote hbest => cases hfirst.symm.trans hbest
    | stale hbest hdear =>
        obtain rfl := Except.ok.inj (hfirst.symm.trans hbest)
        exact absurd hdear (by decide)

end Engine

end RfqSettlement
