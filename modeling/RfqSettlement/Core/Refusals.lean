/-
  RfqSettlement.Core.Refusals

  What a refused command leaves behind.

  Every handler but one checks first and writes afterwards, so a refusal leaves
  the normalised ledger and the event buffer as they were.  `submit_quote`
  withdraws the maker's standing quote before the ledger admits the new one; the
  refusal that can still follow is `Stranded`.
-/

import RfqSettlement.Core.Runs

namespace RfqSettlement

namespace Ledger

variable {l l' : Ledger} {q : QuoteIdx} {x : Quote} {maker amount : Nat}

-- ============================================================================
-- What a withdrawal makes room for
-- ============================================================================

/-- The amount of the claim a quote holds. -/
def heldBy (l : Ledger) (x : Quote) : Nat :=
  ((x.claim.bind l.reservation).map Reservation.amount).getD 0

/-- The ledger can reserve `amount` for `maker` and store a quote, once the quote
    `q` has given back its claim and its slot. -/
structure Affords (l : Ledger) (maker : Nat) (q : QuoteIdx) (x : Quote) (amount : Nat) : Prop where
  account : ∃ m, l.account maker = some m ∧
    m.reserved - l.heldBy x + m.committed + amount ≤ u64Max ∧
    m.reserved - l.heldBy x + m.committed + amount ≤ m.free
  quotes : l.quotes.hasRoom ∨ q.generation + 1 ≤ u32Max
  reservations : l.reservations.hasRoom ∨ ∃ c, x.claim = some c ∧ c.generation + 1 ≤ u32Max

/-- Withdrawing a quote gives its maker back what it held, and nothing else. -/
theorem totals_retired {max : Nat} {filled : Option ReqIdx}
    {held : Option (ResIdx × Claim)} (h : l.Healthy max filled) (hx : l.quote q = some x)
    (hret : Retires l max filled q x held l') :
    l'.market.totals x.maker =
      (l.market.totals x.maker).map fun t => { t with reserved := t.reserved - l.heldBy x } := by
  rw [hret.market]
  have hnamed := hret.named
  have hbacking := hret.backing
  cases held with
  | none =>
      have hzero : l.heldBy x = 0 := by simp [heldBy, show x.claim = none from hnamed.symm]
      cases ht : l.market.totals x.maker <;> simp [Market.setOffer, Market.letGo, hzero, ht]
  | some v =>
      obtain ⟨c, k⟩ := v
      obtain ⟨res, hres, rfl⟩ := reservation_of_market hbacking.claim
      have hheld : l.heldBy x = res.amount := by
        simp [heldBy, show x.claim = some c from hnamed.symm, hres]
      obtain ⟨o, leg, ho, -, hb⟩ := h.coherent.offered c _ q hbacking.claim hbacking.owner
      rw [market_offers hx, Option.some.injEq] at ho
      have hmaker : res.toClaim.account = x.maker := by
        rw [hb.account, ← ho]
        rfl
      simp only [Market.setOffer, Market.letGo, Market.free, Market.dropClaim, Market.modifyTotals,
        hmaker, Function.update_self, hheld]
      rfl

/-- What a maker's account admits once a quote of theirs is gone. -/
theorem admits_retired {max : Nat} {filled : Option ReqIdx}
    {held : Option (ResIdx × Claim)} (h : l.Healthy max filled) (hx : l.quote q = some x)
    (hret : Retires l max filled q x held l') :
    (∃ m, Admits l' x.maker amount m) ↔
      ∃ m, l.account x.maker = some m ∧
        m.reserved - l.heldBy x + m.committed + amount ≤ u64Max ∧
        m.reserved - l.heldBy x + m.committed + amount ≤ m.free := by
  have htotals : (l'.account x.maker).map MirroredBalance.totals =
      ((l.account x.maker).map MirroredBalance.totals).map fun t =>
        { t with reserved := t.reserved - l.heldBy x } := totals_retired h hx hret
  constructor
  · rintro ⟨m', hm', hfits, hcovered⟩
    rw [hm', Option.map_some, eq_comm] at htotals
    obtain ⟨t, ht, htotals⟩ := Option.map_eq_some_iff.mp htotals
    obtain ⟨m, hm, rfl⟩ := Option.map_eq_some_iff.mp ht
    simp only [MirroredBalance.totals, Totals.mk.injEq] at htotals
    obtain ⟨hfree, hreserved, hcommitted⟩ := htotals
    exact ⟨m, hm, by omega, by omega⟩
  · rintro ⟨m, hm, hfits, hcovered⟩
    rw [hm, Option.map_some, Option.map_some] at htotals
    obtain ⟨m', hm', htotals⟩ := Option.map_eq_some_iff.mp htotals
    simp only [MirroredBalance.totals, Totals.mk.injEq] at htotals
    obtain ⟨hfree, hreserved, hcommitted⟩ := htotals
    exact ⟨m', hm', by omega, by omega⟩

/-- The ledger admits the new quote once the standing one is gone exactly if the
    withdrawal makes room. -/
theorem canOpenQuote_retired {max : Nat} {filled : Option ReqIdx}
    {held : Option (ResIdx × Claim)} (h : l.Healthy max filled) (hx : l.quote q = some x)
    (hmaker : x.maker = maker) (hret : Retires l max filled q x held l') :
    CanOpenQuote l' maker amount ↔ Affords l maker q x amount := by
  subst hmaker
  have haccount : (∃ m, Admits l' x.maker amount m) ↔ _ := admits_retired h hx hret
  have hquotes : l'.quotes.hasRoom = true ↔ l.quotes.hasRoom = true ∨ q.generation + 1 ≤ u32Max := by
    rw [hret.quoteRoom, Bool.or_eq_true, decide_eq_true_eq]
  have hreservations : l'.reservations.hasRoom = true ↔
      l.reservations.hasRoom = true ∨ ∃ c, x.claim = some c ∧ c.generation + 1 ≤ u32Max := by
    rw [hret.room, Bool.or_eq_true]
    simp [Option.any_eq_true]
  unfold CanOpenQuote
  rw [haccount, hquotes, hreservations]
  exact ⟨fun ⟨ha, hq, hr⟩ => ⟨ha, hq, hr⟩, fun ⟨ha, hq, hr⟩ => ⟨ha, hq, hr⟩⟩

end Ledger

namespace Engine

open Ledger (Healthy QuoteChecked Affords)

variable {e : Engine} {command : Command} {now maker i price size expiresAt amount : Nat}
  {events : EventBuffer} {r : ReqIdx} {q : QuoteIdx} {stood : Option QuoteIdx} {x : Quote}
  {y : Request} {leg : Leg}

-- ============================================================================
-- Refusals without a trace
-- ============================================================================

/-- If the answer is a refusal, the ledger is `l` and the buffer is `events`. -/
def Answer.Traceless (l : Ledger) (events : EventBuffer) (a : Answer) : Prop :=
  ∀ err, a.1 = .error err → a.2.1.ledger = l ∧ a.2.2 = events

theorem traceless_refuse {err : EngineError} : (e.refuse events err).Traceless e.ledger events :=
  fun _ _ => ⟨rfl, rfl⟩

theorem traceless_ok {l : Ledger} {e' : Engine} {b : EventBuffer} :
    Answer.Traceless l events (.ok (), e', b) := by
  rintro err ⟨⟩

theorem traceless_done {l : Ledger} {w : Work} : (e.done w).Traceless l events := traceless_ok

/-- Every command but a quote. -/
theorem Sane.traceless (h : e.Sane)
    (hcommand : ∀ maker r leg price size expiresAt,
      command ≠ .submitQuote maker r leg price size expiresAt) :
    (e.perform command now events).Traceless e.ledger events := by
  have hperforms := h.performs command now events
  generalize e.perform command now events = answer at hperforms ⊢
  cases hperforms with
  | refused => exact fun _ _ => ⟨rfl, rfl⟩
  | withdrawn => exact absurd rfl (hcommand _ _ _ _ _ _)
  | _ => exact traceless_ok

-- ============================================================================
-- Replacements
-- ============================================================================

/-- A replacement that passes every check of `submit_quote`, against a standing
    quote whose withdrawal does not make room for it. -/
def Stranded (e : Engine) (command : Command) (now : Nat) (events : EventBuffer) : Prop :=
  ∃ maker r i price size expiresAt q x y leg amount,
    command = .submitQuote maker r i price size expiresAt ∧
      QuoteChecked e maker r i price size expiresAt now events (some q)
        amount y leg ∧ e.ledger.quote q = some x ∧ ¬ Affords e.ledger maker q x amount

/-- What passes the checks one by one passes `checkQuote`. -/
theorem checkQuote_of_checked
    (hc : QuoteChecked e maker r i price size expiresAt now events stood amount y leg)
    (hstored : ∀ q, stood = some q → ∃ x, e.ledger.quote q = some x) :
    e.checkQuote maker r i price size expiresAt now events = .ok (stood, amount) := by
  have hreplace : e.checkReplacement leg stood price = .ok () := by
    cases hstood : stood with
    | none => exact if_neg (Nat.not_le.mpr (hc.room hstood))
    | some q =>
        obtain ⟨x, hx⟩ := hstored q hstood
        simp only [checkReplacement, hx, if_neg (Nat.not_lt.mpr (hc.better q x hstood hx))]
  have hamount : Size.makerContribution leg.size price = some amount :=
    Size.makerContribution_eq_some.mpr ⟨hc.priced, hc.amount ▸ hc.fits, hc.amount⟩
  simp only [checkQuote, hc.request, hc.opened, ne_eq, not_true_eq_false, if_false,
    if_neg (Nat.not_le.mpr hc.deadline), hc.found, if_neg (Nat.not_le.mpr hc.expiry),
    if_neg (Nat.not_lt.mpr hc.ttl), if_neg (Nat.not_lt.mpr hc.priced),
    if_neg (Nat.not_lt.mpr hc.sized), ← hc.located, hreplace, hamount, hc.headroom, Bool.not_true,
    Bool.false_eq_true]

/-- A replacement that is not stranded leaves no trace if it is refused. -/
theorem Sane.traceless_submitQuote (h : e.Sane)
    (hnot : ¬ Stranded e (.submitQuote maker r i price size expiresAt) now events) :
    (e.submitQuote maker r i price size expiresAt now events).Traceless e.ledger events := by
  rcases h.healthy.submitQuote (r := r) (i := i)
    rfl h.config.quotesPerLeg with
    ⟨err, heq⟩ | ⟨standing, contribution, y, leg, w₁, hc, hw, ⟨hcant, err, arrival, heq⟩ |
      ⟨-, w', arrival, heq, -⟩⟩
  · exact heq ▸ traceless_refuse
  · cases hstanding : standing with
    | none =>
        obtain rfl := hw.untouched hstanding
        exact heq ▸ traceless_refuse (e := { e with nextArrival := arrival })
    | some q =>
        subst hstanding
        obtain ⟨x, held, hx, hret, -⟩ := hw.retired q rfl
        obtain ⟨x', hx', hmaker, -⟩ := h.healthy.standing (q := q) hc.request
          hc.opened hc.found hc.located.symm
        have hx : e.ledger.quote q = some x := hx
        rw [hx, Option.some.injEq] at hx'
        subst hx'
        refine absurd ⟨maker, r, i, price, size, expiresAt, q, x, y, leg, contribution, rfl, hc, hx,
          fun hroom => hcant ?_⟩ hnot
        exact (Ledger.canOpenQuote_retired h.healthy hx hmaker hret).mpr hroom
  · exact heq ▸ traceless_done (e := { e with nextArrival := arrival })

/-- A stranded replacement is refused, and the standing quote is gone. -/
theorem Sane.stranded (h : e.Sane) (hs : Stranded e command now events) :
    ¬ (e.perform command now events).Traceless e.ledger events := by
  obtain ⟨maker, r, i, price, size, expiresAt, q, x, y, leg, amount, rfl, hc, hx, hnot⟩ := hs
  obtain ⟨x', hx', hmaker, -⟩ := h.healthy.standing (q := q) hc.request hc.opened
    hc.found hc.located.symm
  rw [hx, Option.some.injEq] at hx'
  subst hx'
  have hw := h.healthy.withdrawStanding rfl hc
  obtain ⟨x', held, hx', hret, -⟩ := hw.retired q rfl
  have hx' : e.ledger.quote q = some x' := hx'
  rw [hx, Option.some.injEq] at hx'
  subst hx'
  have hcant := (Ledger.canOpenQuote_retired h.healthy hx hmaker hret).not.mpr hnot
  intro htrace
  simp only [Engine.perform, Engine.submitQuote, checkQuote_of_checked hc fun _ heq => ⟨x, Option.some.inj heq ▸ hx⟩] at htrace
  generalize Engine.withdrawStanding (e.ledger, events) maker r i (some q) = w₁ at hw hret hcant htrace
  obtain ⟨err, heq⟩ := Ledger.openQuoteReserving_error
    (Quote.new maker r i price size expiresAt e.nextArrival) _ hcant
  rw [heq] at htrace
  obtain ⟨hledger, -⟩ := htrace _ rfl
  have hledger : w₁.1 = e.ledger := hledger
  have hgone : w₁.1.market.offers q = none := by
    rw [hret.market]
    exact Function.update_self ..
  rw [hledger, Ledger.market_offers hx] at hgone
  cases hgone

/-- The engine an input is performed on. -/
def normalisedFor (e : Engine) (input : Input) : Engine :=
  e.normaliseAll (e.touchedAccounts input.command) input.now

/-- Exactly what a refused command leaves behind, from every reachable state: the
    normalised ledger and an empty buffer, unless a replacement is stranded. -/
theorem answer_traceless_iff {config : Config} (h : Reachable config e) (input : Input) :
    (e.answer input).Traceless (e.normalisedFor input).ledger (.withCapacity input.capacity) ↔
      ¬ Stranded (e.normalisedFor input) input.command input.now (.withCapacity input.capacity) := by
  have hsane : (e.normalisedFor input).Sane :=
    ((sane_of_reachable h).normalised input.command input.now).sane
  obtain ⟨command, now, capacity⟩ := input
  refine ⟨fun htrace hs => hsane.stranded hs htrace, fun hnot => ?_⟩
  by_cases hquote : ∃ maker r i price size expiresAt,
      command = .submitQuote maker r i price size expiresAt
  · obtain ⟨maker, r, i, price, size, expiresAt, rfl⟩ := hquote
    exact hsane.traceless_submitQuote hnot
  · exact hsane.traceless fun maker r i price size expiresAt heq =>
      hquote ⟨maker, r, i, price, size, expiresAt, heq⟩

def standingInputs : List Input :=
  [⟨.creditAccount 0 2000000, 0, 8⟩, ⟨.creditAccount 1 800000, 0, 8⟩,
    ⟨.registerContract 0 1000, 0, 8⟩, ⟨.submitRequest 0 50 [⟨0, .yes, 2, 900000⟩], 1, 8⟩,
    ⟨.submitQuote 1 ⟨0, 0⟩ 0 600000 2 40, 2, 8⟩]

/-- A venue with one open request and one quote standing on its leg, whose maker
    has nothing left. -/
def standing : Engine := Engine.run ⟨Config.small, Ledger.new Config.small, 0⟩ standingInputs

theorem reachable_standing : Reachable Config.small standing :=
  have hnew : Reachable Config.small ⟨Config.small, Ledger.new Config.small, 0⟩ := .new rfl
  hnew.run _

/-- Cancelling the standing quote is refused, without a trace. -/
theorem answer_traceless_iff_standing :
    (standing.answer ⟨.cancelQuote ⟨0, 0⟩, 3, 8⟩).Traceless
      (standing.normalisedFor ⟨.cancelQuote ⟨0, 0⟩, 3, 8⟩).ledger (.withCapacity 8) :=
  (answer_traceless_iff reachable_standing _).mpr fun ⟨_, _, _, _, _, _, _, _, _, _, _, heq, _⟩ =>
    absurd heq (by simp)

/-- A better price the maker cannot cover is refused, and the standing quote is
    withdrawn all the same. -/
theorem refused_replacement_withdraws :
    ¬ ∀ (config : Config) (e : Engine), Reachable config e → ∀ input : Input,
      (e.answer input).Traceless (e.normalisedFor input).ledger (.withCapacity input.capacity) := by
  intro h
  have htrace := h Config.small standing reachable_standing ⟨.submitQuote 1 ⟨0, 0⟩ 0 500000 2 40, 3, 8⟩
    (.ledger .insufficientFree) (by decide +kernel)
  exact absurd htrace.2 (by decide +kernel)

end Engine

end RfqSettlement
