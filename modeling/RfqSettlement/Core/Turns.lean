/-
  RfqSettlement.Core.Turns

  One command at a time, what becomes of the stored quotes and what their makers are
  told of it: a bid, a reject, an accept, a resolution, or nothing at all.
-/

import RfqSettlement.Core.Placement
import RfqSettlement.Core.Timing

namespace RfqSettlement

-- ============================================================================
-- Events that end nothing
-- ============================================================================

/-- The request an event says is escrowed. -/
def Event.escrows : Event → Option ReqIdx
  | .requestEscrowed r _ => some r
  | _ => none

/-- An event about the end of no quote. -/
structure Event.Mute (event : Event) : Prop where
  fate : event.fate = none
  escrows : event.escrows = none

namespace EventBuffer

variable {b b' b'' : EventBuffer} {event : Event}

/-- `b'` is `b` with mute events added. -/
def Mutters (b b' : EventBuffer) : Prop :=
  ∃ tail, b'.events = b.events ++ tail ∧ ∀ event ∈ tail, event.Mute

theorem Mutters.refl (b : EventBuffer) : Mutters b b := ⟨[], by simp, by simp⟩

theorem Mutters.trans (h : Mutters b b') (h' : Mutters b' b'') : Mutters b b'' := by
  obtain ⟨tail, heq, hmute⟩ := h
  obtain ⟨tail', heq', hmute'⟩ := h'
  refine ⟨tail ++ tail', by rw [heq', heq, List.append_assoc], fun event hevent => ?_⟩
  rcases List.mem_append.mp hevent with hevent | hevent
  · exact hmute event hevent
  · exact hmute' event hevent

theorem tells_foldl (new : List Event) : Tells new b (new.foldl push b) := by
  induction new generalizing b with
  | nil => exact .refl b
  | cons event new ih =>
      have hpush : Tells [event] b (b.push event) := tells_push
      exact hpush.trans ih

theorem mutters_push (h : event.Mute) : Mutters b (b.push event) := by
  unfold push
  split
  · exact ⟨[event], rfl, fun event' hevent => by rwa [List.mem_singleton.mp hevent]⟩
  · exact .refl b

end EventBuffer

open EventBuffer (Tells Mutters)

namespace Ledger

variable {w : Work} {l l' : Ledger} {r : ReqIdx} {i now amount account index expiresAt : Nat}
  {q : QuoteIdx} {c : ResIdx} {record : Quote}

-- ============================================================================
-- Bids
-- ============================================================================

theorem quotes_linkIntoExpiryChain :
    (l.linkIntoExpiryChain account index expiresAt).quotes = l.quotes := by
  unfold linkIntoExpiryChain
  split
  · rfl
  dsimp only
  split
  · unfold spliceAfter
    dsimp only
    split <;> rfl
  · unfold spliceAtHead
    dsimp only
    split <;> rfl

theorem offers_openQuoteReserving
    (h : l.openQuoteReserving record amount = (.ok (q, c), l')) :
    l'.market.offers = Function.update l.market.offers q (some record.offer) := by
  unfold openQuoteReserving at h
  split at h
  · cases h
  split at h
  · cases h
  split at h
  · cases h
  split at h
  · cases h
  next quotes hins =>
  dsimp only at h
  split at h
  · cases h
  · cases h
    unfold linkClaim
    refine Eq.trans offers_setOwnerClaim (Eq.trans (offers_of_quotes (quotes_linkIntoExpiryChain)) ?_)
    funext q'
    show (quotes.get q').map Quote.offer = _
    rw [(Slab.get_insert hins).2, Function.update_apply]
    split <;> rfl

theorem offers_linkQuote : (l.linkQuote r i q).market.offers = l.market.offers :=
  offers_modifyQuote (f := fun x => { x with nextOnLeg := _ }) fun _ => rfl

theorem offers_publishSelection :
    (w.publishSelection r i now).1.market.offers = w.1.market.offers := by
  unfold Work.publishSelection
  repeat' split
  all_goals rfl

theorem mutters_publishSelection : Mutters w.2 (w.publishSelection r i now).2 := by
  unfold Work.publishSelection
  split
  · exact .refl _
  split
  · exact .refl _
  split
  · exact .refl _
  · exact EventBuffer.mutters_push ⟨rfl, rfl⟩

/-- A maker without a standing quote has none on the leg. -/
theorem Healthy.not_standing {maker max : Nat} {y : Request} {leg : Leg} {filled : Option ReqIdx}
    {o : Offer} (h : l.Healthy max filled) (hr : l.request r = some y) (hopened : y.state = .opened)
    (hleg : y.leg i = some leg) (hnone : l.standingQuoteOf leg maker = none)
    (ho : OnLeg l.market r i q o) : o.maker ≠ maker := by
  obtain ⟨qs, hchain, -, hwalk, hall⟩ := walkLeg_of_chained h.chained hr hopened hleg
  obtain ⟨x, hx, rfl⟩ := quote_of_market ho.offer
  have hmem : q ∈ qs := (hchain.mem q).mpr ⟨by simp, x, hx, ho.request, ho.leg⟩
  rw [← hwalk] at hmem
  obtain ⟨v, hv, rfl⟩ := List.mem_map.mp hmem
  obtain rfl := Option.some.inj ((hall v hv).symm.trans hx)
  rw [standingQuoteOf, Option.map_eq_none_iff, List.find?_eq_none] at hnone
  intro hmaker
  exact hnone v hv (by simpa using ⟨hmaker, ho.active⟩)

-- ============================================================================
-- Resolutions
-- ============================================================================

/-- The quotes that won a leg of `r`. -/
def Won (m : Market) (r : ReqIdx) (q : QuoteIdx) : Prop :=
  ∃ o, m.offers q = some o ∧ o.request = r ∧ o.state = .consumed

/-- A list of stored quotes, with their offers. -/
theorem exists_stored {m : Market} (qs : List QuoteIdx) (h : ∀ q ∈ qs, ∃ o, m.offers q = some o) :
    ∃ gone : List (QuoteIdx × Offer), gone.map Prod.fst = qs ∧
      ∀ v ∈ gone, m.offers v.1 = some v.2 := by
  induction qs with
  | nil => exact ⟨[], rfl, by simp⟩
  | cons q qs ih =>
      obtain ⟨o, ho⟩ := h q (by simp)
      obtain ⟨gone, rfl, hgone⟩ := ih fun q hq => h q (by simp [hq])
      refine ⟨(q, o) :: gone, rfl, fun v hv => ?_⟩
      rcases List.mem_cons.mp hv with rfl | hv
      · exact ho
      · exact hgone v hv

/-- The winners, in the order their claims are discharged. -/
def winners (gone : List (ResIdx × Claim)) : List QuoteIdx :=
  gone.filterMap fun v =>
    match v.2.owner with
    | .quote q => some q
    | .request _ => none

theorem mem_winners {gone : List (ResIdx × Claim)} :
    q ∈ winners gone ↔ ∃ v ∈ gone, v.2.owner = .quote q := by
  rw [winners, List.mem_filterMap]
  refine exists_congr fun v => and_congr_right fun _ => ?_
  cases v.2.owner <;> simp

/-- What a resolution discharges for quotes, it discharges for winners of the request, one
    claim each. -/
theorem Healthy.winners_won {gone : List (ResIdx × Claim)} {max : Nat} {l' : Ledger}
    (h : l.Healthy max none) (hd : Book.Discharged r l.book gone l'.book) :
    (winners gone).Nodup ∧ ∀ q ∈ winners gone, Won l.market r q := by
  obtain ⟨hnodup, hcommitted, hexact⟩ := hd.exact
  have hclaim : ∀ v ∈ gone, l.market.claims v.1 = some v.2 := fun v hv =>
    (hexact v.1 v.2).mpr (.inl hv)
  refine ⟨?_, fun q hq => ?_⟩
  · rw [winners, List.Nodup, List.pairwise_filterMap]
    refine List.Pairwise.imp_of_mem (fun {v v'} hv hv' hne q hq q' hq' heq => ?_)
      (List.pairwise_map.mp hnodup)
    have howner : ∀ {v : ResIdx × Claim} {q : QuoteIdx}, (match v.2.owner with
        | .quote q => some q
        | .request _ => none) = some q → v.2.owner = .quote q := by
      intro v q hq
      split at hq
      next hown => rw [hown, Option.some.inj hq]
      next => cases hq
    refine hne (h.coherent.single _ _ _ _ (hclaim v hv) (hclaim v' hv') ?_)
    rw [howner hq, howner hq', heq]
  · obtain ⟨v, hv, howner⟩ := mem_winners.mp hq
    obtain ⟨o, leg, ho, -, hb⟩ := h.coherent.offered v.1 v.2 q (hclaim v hv) howner
    obtain ⟨hs, hr⟩ := hb.committed r (hcommitted v hv)
    exact ⟨o, ho, hr.symm, hs⟩

theorem winners_exact {gone : List (ResIdx × Claim)} {max : Nat} {l' : Ledger}
    (h : l.Healthy max none) (hp : l.market.Placed) (hd : Book.Discharged r l.book gone l'.book)
    (hcleared : ∀ h k, l'.market.claims h = some k → k.status ≠ .committed r) :
    (winners gone).Nodup ∧ ∀ q, q ∈ winners gone ↔ Won l.market r q := by
  obtain ⟨hnodup, hwon⟩ := h.winners_won hd
  refine ⟨hnodup, fun q => ⟨hwon q, ?_⟩⟩
  rintro ⟨o, ho, hr, hs⟩
  obtain ⟨c, k, hk, howner, hstatus⟩ := hp.pledged q o ho hs
  rw [hr] at hstatus
  rcases (hd.exact.2.2 c k).mp hk with hv | hleft
  · exact mem_winners.mpr ⟨(c, k), hv, howner⟩
  · exact absurd hstatus (hcleared c k hleft)

/-- The notices are the winners', with their makers, as many as there is storage for. -/
theorem notices_eq_winners {gone : List (ResIdx × Claim)} :
    Engine.notices l (gone.map fun v => (v.2.owner, v.2.amount)) =
      ((winners gone).take MAX_LEGS).map fun q => (q, ((l.quote q).map Quote.maker).getD 0) := by
  unfold Engine.notices winners
  rw [List.filterMap_map]
  rfl

/-- A settling request is noticed of once a leg at most. -/
theorem Healthy.length_notices {max : Nat} {a : Auction} {visited : List (ResOwner × Nat)}
    {l' : Ledger} (h : l.Healthy max none) (hp : l.market.Sited)
    (ha : l.market.auctions r = some a) (hsettling : a.IsSettling)
    (heq : CommitPhase.dischargeCommitted l r = (visited, l')) :
    (Engine.notices l' visited).length ≤ a.legs.length := by
  obtain ⟨gone, l₁, heq', hd, -⟩ := h.dischargeCommitted 0 ha hsettling
  rw [heq', Prod.mk.injEq] at heq
  obtain ⟨rfl, rfl⟩ := heq
  obtain ⟨hnodup, hwon⟩ := h.winners_won hd
  rw [notices_eq_winners, List.length_map]
  exact (List.length_take_le' _ _).trans (hp.length_winners h.coherent ha hnodup hwon)

/-- Once the claims of a request are discharged, closing its consumed quotes takes every
    one of them off the book. -/
theorem Healthy.closeConsumedQuotes_offers {max : Nat} (h : l.Healthy max none)
    (hcleared : ∀ h k, l.market.claims h = some k → k.status ≠ .committed r)
    (hfew : ∀ qs : List QuoteIdx, qs.Nodup → (∀ q ∈ qs, Won l.market r q) → qs.length ≤ MAX_LEGS) :
    ∃ qs : List QuoteIdx, (∀ q, q ∈ qs ↔ Won l.market r q) ∧
      ∀ q, (Engine.closeConsumedQuotes l r).market.offers q =
        if q ∈ qs then none else l.market.offers q := by
  generalize hqs : (l.quotes.iter.filter fun x =>
    decide (x.2.request = r ∧ x.2.state = .consumed ∧ x.2.claim = none)).map Prod.fst = qs
  have hmem : ∀ q, q ∈ qs ↔ Won l.market r q := by
    intro q
    rw [← hqs, List.mem_map]
    constructor
    · rintro ⟨v, hv, rfl⟩
      obtain ⟨hstored, hmatch⟩ := List.mem_filter.mp hv
      obtain ⟨hr, hs, -⟩ := of_decide_eq_true hmatch
      exact ⟨v.2.offer, market_offers (Slab.mem_iter.mp hstored), hr, hs⟩
    · rintro ⟨o, ho, hr, hs⟩
      obtain ⟨x, hx, rfl⟩ := quote_of_market ho
      refine ⟨(q, x), List.mem_filter.mpr ⟨Slab.mem_iter.mpr hx, ?_⟩, rfl⟩
      have hclaim : x.claim = none := by
        cases hc : x.claim with
        | none => rfl
        | some c =>
            obtain ⟨k, hk, howner⟩ := h.intact.balanced.holder (.quote q) c (by
              rw [ownerClaim_book]
              simp [Ledger.ownerClaim, hx, hc])
            obtain ⟨o', leg, ho', -, hb⟩ := h.coherent.offered c k q hk howner
            obtain rfl := Option.some.inj (ho.symm.trans ho')
            cases hstatus : k.status with
            | reserved e =>
                cases hs.symm.trans (hb.reserved e hstatus).1
            | committed r' =>
                obtain rfl : r' = r := ((hb.committed r' hstatus).2).trans hr
                exact absurd hstatus (hcleared c k hk)
      exact decide_eq_true ⟨hr, hs, hclaim⟩
  have hnodup : qs.Nodup := by
    have hsub : qs.Sublist (l.quotes.iter.map Prod.fst) := hqs ▸ List.filter_sublist.map _
    exact hsub.nodup Slab.nodup_iter
  refine ⟨qs, hmem, fun q => ?_⟩
  unfold Engine.closeConsumedQuotes
  dsimp only
  rw [hqs, List.take_of_length_le (hfew qs hnodup fun q hq => (hmem q).mp hq), offers_closeQuotes]

/-- The notice a maker gets of a winner whose settlement failed. -/
def failedNotice (v : QuoteIdx × Offer) : Event := .quoteRejected v.1 v.2.maker .settlementFailed

/-- `w'` is `w` with the winners `gone` of `r` off the book. -/
structure Vacates (w : Work) (r : ReqIdx) (gone : List (QuoteIdx × Offer)) (w' : Work) : Prop where
  sheds : Market.Sheds gone [] w.1.market w'.1.market
  mem : ∀ q, q ∈ gone.map Prod.fst ↔ Won w.1.market r q

theorem won_congr {m m' : Market} (h : m'.offers = m.offers) : Won m' r q ↔ Won m r q := by
  simp only [Won, h]

/-- What a resolution closes: the winners, all of them. -/
theorem Healthy.closes {max : Nat} {a : Auction} {l₁ l₂ : Ledger} (h : l.Healthy max none)
    (hp : l.market.Sited) (ha : l.market.auctions r = some a)
    (hdischarges : Discharges l max now r l₁) (hoffers : l₁.market.offers = l.market.offers)
    (h₂ : l₂.Healthy max none) (hclaims₂ : l₂.market.claims = l₁.market.claims)
    (hoffers₂ : l₂.market.offers = l₁.market.offers) :
    ∃ qs : List QuoteIdx, (∀ q, q ∈ qs ↔ Won l.market r q) ∧
      ∀ q, (Engine.closeConsumedQuotes l₂ r).market.offers q =
        if q ∈ qs then none else l.market.offers q := by
  have hsame : l₂.market.offers = l.market.offers := hoffers₂.trans hoffers
  obtain ⟨qs, hqs, hfinal⟩ := h₂.closeConsumedQuotes_offers (r := r)
    (by rw [hclaims₂]; exact hdischarges.cleared) fun qs hnodup hqs =>
      (hp.length_winners h.coherent ha hnodup fun q hq => (won_congr hsame).mp (hqs q hq)).trans
        (h.coherent.fair r a ha).count
  exact ⟨qs, fun q => (hqs q).trans (won_congr hsame), hsame ▸ hfinal⟩

/-- What a resolution discharges and closes: the same quotes. -/
theorem Healthy.vacates {max : Nat} {a : Auction} {gone : List (ResIdx × Claim)} {l₁ l₂ : Ledger}
    (b : EventBuffer) (w' : Work) (h : l.Healthy max none) (hp : l.market.Placed)
    (ha : l.market.auctions r = some a) (hd : Book.Discharged r l.book gone l₁.book)
    (hdischarges : Discharges l max now r l₁) (hoffers : l₁.market.offers = l.market.offers)
    (h₂ : l₂.Healthy max none) (hclaims₂ : l₂.market.claims = l₁.market.claims)
    (hoffers₂ : l₂.market.offers = l₁.market.offers)
    (hclosed : w'.1.market.offers = (Engine.closeConsumedQuotes l₂ r).market.offers) :
    ∃ lost : List (QuoteIdx × Offer), lost.map Prod.fst = winners gone ∧
      lost.length ≤ a.legs.length ∧ Vacates (l, b) r lost w' := by
  obtain ⟨hnodup, hwon⟩ := winners_exact h hp hd hdischarges.cleared
  have hcount : ∀ qs : List QuoteIdx, qs.Nodup → (∀ q ∈ qs, Won l.market r q) →
      qs.length ≤ a.legs.length := fun qs hnodup hqs =>
      hp.sited.length_winners h.coherent ha hnodup hqs
  obtain ⟨qs, hqs, hfinal⟩ := h.closes hp.sited ha hdischarges hoffers h₂ hclaims₂ hoffers₂
  obtain ⟨lost, hlost, hstored⟩ := exists_stored (m := l.market) (winners gone) fun q hq => by
    obtain ⟨o, ho, -⟩ := (hwon q).mp hq
    exact ⟨o, ho⟩
  refine ⟨lost, hlost, ?_, ⟨hlost ▸ hnodup, hstored, by simp, fun q => ?_⟩, fun q => ?_⟩
  · rw [← List.length_map Prod.fst, hlost]
    exact hcount _ hnodup fun q hq => (hwon q).mp hq
  · show w'.1.market.offers q = _
    rw [hclosed, hfinal]
    have hiff : q ∈ qs ↔ q ∈ lost.map Prod.fst := by rw [hqs, hlost, hwon]
    simp only [hiff, List.not_mem_nil, if_false]
  · rw [hlost]
    exact hwon q

variable {engine : Engine} {events : EventBuffer} {max : Nat} {a : Auction} {nonce : Nonce}

theorem Healthy.settleRequest_vacates (nonce : Nonce) (events : EventBuffer) (now : Nat)
    (h : engine.ledger.Healthy max none)
    (hp : engine.ledger.market.Placed) (ha : engine.ledger.market.auctions r = some a)
    (hsettling : a.IsSettling) :
    ∃ gone, Vacates (engine.ledger, events) r gone (engine.settleRequest r nonce events) := by
  obtain ⟨discharged, l₁, heq, hd, hdischarges⟩ := h.dischargeCommitted now ha hsettling
  have hoffers : l₁.market.offers = engine.ledger.market.offers := by
    have := offers_dischargeCommitted (l := engine.ledger) (r := r)
    rwa [heq] at this
  obtain ⟨h₂, hmarket₂, (- : Market.Step now _ _ _)⟩ := hdischarges.healthy.setResolved
    (by rw [hdischarges.auctions]; exact ha) hsettling hdischarges.cleared (.inl rfl)
  obtain ⟨gone, -, -, hvacates⟩ := h.vacates events (engine.settleRequest r nonce events)
    hp ha hd hdischarges hoffers h₂ (by rw [hmarket₂]; rfl) rfl (by
      unfold Engine.settleRequest
      rw [heq])
  exact ⟨gone, hvacates⟩

/-- A failed settlement tells each winner's maker, in the order the claims are discharged. -/
theorem Healthy.failRequest_vacates (nonce : Nonce) (events : EventBuffer) (now : Nat)
    (h : engine.ledger.Healthy max none)
    (hp : engine.ledger.market.Placed) (ha : engine.ledger.market.auctions r = some a)
    (hsettling : a.IsSettling) :
    ∃ gone : List (QuoteIdx × Offer), gone.length ≤ a.legs.length ∧
      Vacates (engine.ledger, events) r gone (engine.failRequest r nonce events) ∧
      (engine.failRequest r nonce events).2 =
        ((gone.map failedNotice).foldl EventBuffer.push events).push
          (.requestSettlementFailed r nonce) := by
  obtain ⟨discharged, l₁, heq, hd, hdischarges⟩ := h.dischargeCommitted now ha hsettling
  have hoffers : l₁.market.offers = engine.ledger.market.offers := by
    have := offers_dischargeCommitted (l := engine.ledger) (r := r)
    rwa [heq] at this
  obtain ⟨gone, hgone, hcount, hvacates⟩ := h.vacates events (engine.failRequest r nonce events)
    hp ha hd hdischarges hoffers hdischarges.healthy rfl rfl (by
      unfold Engine.failRequest
      rw [heq]
      rfl)
  refine ⟨gone, hcount, hvacates, ?_⟩
  have hnotices : Engine.notices l₁ (discharged.map fun v => (v.2.owner, v.2.amount)) =
      gone.map fun v => (v.1, v.2.maker) := by
    rw [notices_eq_winners, ← hgone, List.take_of_length_le, List.map_map]
    · refine List.map_congr_left fun v hv => ?_
      have ho : l₁.market.offers v.1 = some v.2 := by
        rw [hoffers]
        exact hvacates.sheds.stored v hv
      obtain ⟨x, hx, hoffer⟩ := quote_of_market ho
      simp only [Function.comp_apply, hx, Option.map_some, Option.getD_some, ← hoffer]
      rfl
    · rw [List.length_map]
      exact hcount.trans (h.coherent.fair r a ha).count
  unfold Engine.failRequest
  rw [heq]
  show ((Engine.notices l₁ _).foldl _ events).push _ = _
  rw [hnotices, List.foldl_map, List.foldl_map]
  rfl

end Ledger

namespace Engine

open Ledger (QuoteChecked Checked Accepted Parts OnLeg intentOf Writes)

variable {e : Engine} {command : Command} {now : Nat} {events : EventBuffer} {r : ReqIdx}
  {maker i price size expiresAt : Nat} {q : QuoteIdx}

/-- The notice a maker gets of a quote replaced. -/
def replacedNotice (v : QuoteIdx × Offer) : Event := .quoteRejected v.1 v.2.maker .replaced

/-- What a submission of the offer `o` comes to: the quote it replaces leaves, its
    maker told, and unless it is refused `fresh` comes. -/
structure Bids (e : Engine) (o : Offer) (events : EventBuffer) (gone : List (QuoteIdx × Offer))
    (fresh : Option QuoteIdx) (a : Answer) : Prop where
  answered : a.1 = .ok () ↔ fresh.isSome = true
  single : gone.length ≤ 1
  stored : ∀ v ∈ gone, e.market.offers v.1 = some v.2 ∧ v.2.state = .active ∧ v.2.Rivals o
  alone : fresh.isSome = true → ∀ q o', e.market.offers q = some o' → o'.state = .active →
    o'.Rivals o → q ∈ gone.map Prod.fst
  opened : fresh.isSome = true → ∃ a, e.market.auctions o.request = some a ∧ a.state = .opened
  unspent : ∀ q, fresh = some q → e.market.offers q = none ∧ ¬ e.ledger.quotes.Spent q
  offers : ∀ q, a.2.1.market.offers q =
    if fresh = some q then some o
    else if q ∈ gone.map Prod.fst then none else e.market.offers q
  told : ∃ tail, a.2.2.events = events.events ++ gone.map replacedNotice ++ tail ∧
    ∀ event ∈ tail, event.Mute

/-- Withdrawing the standing quote. -/
theorem Sane.withdrawStanding_sheds {standing : Option QuoteIdx} {contribution : Nat} {y : Request}
    {leg : Leg} (h : e.Sane)
    (hc : QuoteChecked e maker r i price size expiresAt now events standing contribution y leg) :
    ∃ gone : List (QuoteIdx × Offer), gone.map Prod.fst = standing.toList ∧
      (∀ v ∈ gone, OnLeg e.market r i v.1 v.2 ∧ v.2.maker = maker) ∧
      (∀ q, (withdrawStanding (e.ledger, events) maker r i standing).1.market.offers q =
        if q ∈ gone.map Prod.fst then none else e.market.offers q) ∧
      (withdrawStanding (e.ledger, events) maker r i standing).2.events =
        events.events ++ gone.map replacedNotice := by
  have hw := h.healthy.withdrawStanding rfl hc
  cases hstanding : standing with
  | none => exact ⟨[], rfl, by simp, by simp [withdrawStanding, Engine.market],
      by simp [withdrawStanding]⟩
  | some q =>
      obtain ⟨x, hx, hmaker, ho⟩ := h.healthy.standing (q := q) hc.request hc.opened hc.found
        (by rw [← hc.located, hstanding])
      rw [hstanding] at hw
      obtain ⟨x', held, hx', hret, heq⟩ := hw.retired q rfl
      refine ⟨[(q, x.offer)], rfl, ?_, fun q' => ?_, ?_⟩
      · intro v hv
        obtain rfl := List.mem_singleton.mp hv
        exact ⟨ho, hmaker⟩
      · rw [hret.market]
        simp [Market.setOffer, Function.update_apply, Engine.market]
      · have hroom : events.events.length + 2 ≤ events.capacity := by
          simpa [EventBuffer.headroom] using hc.headroom
        rw [heq]
        show (events.push _).events = _
        rw [EventBuffer.push_of_room (by omega), List.map_singleton, replacedNotice,
          show x.offer.maker = maker from hmaker]

/-- Every submission of a quote. -/
theorem Sane.bids (h : e.Sane) (hp : e.market.Sited) :
    ∃ gone fresh, Bids e ⟨maker, r, i, price, size, expiresAt, .active⟩ events gone fresh
      (e.submitQuote maker r i price size expiresAt now events) := by
  rcases h.submitQuote_cases with ⟨err, heq⟩ |
    ⟨standing, contribution, y, leg, w₁, hc, rfl, hout⟩
  · rw [heq]
    exact ⟨[], none, by simp [refuse], by simp, by simp, by simp, by simp, by simp,
      by simp [refuse], [], by simp [refuse]⟩
  obtain ⟨gone, hgone, hon, hoffers, hevents⟩ := h.withdrawStanding_sheds hc
  have hsingle : gone.length ≤ 1 := by
    rw [← List.length_map Prod.fst, hgone]
    cases standing <;> simp
  have hstored : ∀ v ∈ gone, e.market.offers v.1 = some v.2 ∧ v.2.state = .active ∧
      v.2.Rivals ⟨maker, r, i, price, size, expiresAt, .active⟩ := fun v hv =>
    ⟨(hon v hv).1.offer, (hon v hv).1.active, (hon v hv).2, (hon v hv).1.request, (hon v hv).1.leg⟩
  have hwrites : Writes e.ledger (withdrawStanding (e.ledger, events) maker r i standing).1 :=
    Ledger.writes_withdrawStanding (w := (e.ledger, events))
  have hages := hwrites.ages h.healthy.intact.wired.quotes
  rcases hout with ⟨err, heq⟩ | ⟨q, c, l₂, hopen, heq⟩
  · rw [heq]
    exact ⟨gone, none, by simp [refuse], hsingle, hstored, by simp, by simp, by simp,
      fun q => by simpa [refuse, Engine.market] using hoffers q, [],
      by simpa [refuse] using hevents, by simp⟩
  · obtain ⟨quotes, hins, -⟩ := Ledger.openQuoteReserving_writes hopen
    obtain ⟨hvacant, hget⟩ := Slab.get_insert hins
    have hself : quotes.get q = some (Quote.new maker r i price size expiresAt e.nextArrival) := by
      rw [hget, if_pos rfl]
    have hunspent : ¬ e.ledger.quotes.Spent q := fun hspent => by
      have hgone := ((hages.spent q hspent).insert hins).get
      rw [hself] at hgone
      cases hgone
    have hnew : e.market.offers q = none := by
      cases hold : e.market.offers q with
      | none => rfl
      | some o =>
          obtain ⟨x, hx, -⟩ := Ledger.quote_of_market hold
          rcases hages.kept q x hx with ⟨x', hx'⟩ | hspent
          · cases hx'.symm.trans hvacant
          · have hgone := (hspent.insert hins).get
            rw [hself] at hgone
            cases hgone
    rw [heq]
    refine ⟨gone, some q, by simp [done], hsingle, hstored, fun _ q' o' ho' hs hrivals => ?_,
      fun _ => ⟨y.auction, Ledger.market_auctions hc.request, hc.opened⟩, ?_, fun q' => ?_, ?_⟩
    · have hleg : OnLeg e.market r i q' o' := ⟨ho', hrivals.request, hrivals.leg, hs⟩
      cases hstanding : standing with
      | none =>
          exact absurd hrivals.maker
            (h.healthy.not_standing hc.request hc.opened hc.found
              (by rw [← hc.located, hstanding]) hleg)
      | some q'' =>
          obtain ⟨x, hx, hmaker, ho⟩ := h.healthy.standing (q := q'') hc.request hc.opened hc.found
            (by rw [← hc.located, hstanding])
          have hsame : q' = q'' := hp.lone q' q'' o' x.offer ho' ho.offer hs ho.active
            ⟨hrivals.maker.trans hmaker.symm, hrivals.request.trans ho.request.symm,
              hrivals.leg.trans ho.leg.symm⟩
          rw [hgone, hstanding, hsame]
          simp
    · intro q' hq'
      obtain rfl := Option.some.inj hq'
      exact ⟨hnew, hunspent⟩
    · show Market.offers (Ledger.market (Work.publishSelection _ _ _ _).1) q' = _
      rw [Ledger.offers_publishSelection, Ledger.offers_linkQuote,
        Ledger.offers_openQuoteReserving hopen, Function.update_apply, hoffers]
      by_cases hq : q' = q
      · rw [if_pos hq, if_pos (by rw [hq])]
        rfl
      · rw [if_neg hq, if_neg fun hsome => hq (Option.some.inj hsome).symm]
    · obtain ⟨tail, htail, hmute⟩ : Mutters (withdrawStanding (e.ledger, events) maker r i standing).2
          (Work.publishSelection (l₂.linkQuote r i q,
            (withdrawStanding (e.ledger, events) maker r i standing).2) r i now).2 :=
        Ledger.mutters_publishSelection
      exact ⟨tail, by rw [← hevents]; exact htail, hmute⟩

-- ============================================================================
-- Commands
-- ============================================================================

/-- The commands that end quotes when they go through, besides another quote. -/
def Ends : Command → Prop
  | .rejectRequest _ | .acceptRequest .. => True
  | .pollSettlement _ status => status.isTerminal = true
  | _ => False

/-- What one command, on a normalised engine, does to the stored quotes and says of
    their end. -/
inductive Turn (e : Engine) (now : Nat) (events : EventBuffer) : Command → Answer → Prop where
  | idle {command : Command} {answer : Answer} {scope : Scope}
      (hends : answer.1 = .ok () → ¬ Ends command)
      (hsteps : Market.Steps now scope e.market answer.2.1.market) (hspares : ∀ r, scope.Spares r)
      (hoffers : answer.2.1.market.offers = e.market.offers) (hmutters : Mutters events answer.2.2) :
      Turn e now events command answer
  | bid {maker i price size expiresAt : Nat} {r : ReqIdx} {gone : List (QuoteIdx × Offer)}
      {fresh : Option QuoteIdx} {answer : Answer}
      (hbids : Bids e ⟨maker, r, i, price, size, expiresAt, .active⟩ events gone fresh answer) :
      Turn e now events (.submitQuote maker r i price size expiresAt) answer
  | rejected {r : ReqIdx} {gone : List (QuoteIdx × Offer)} {w' : Work}
      (hparts : Parts now .requestRejected gone [] (e.ledger, events) w')
      (hroom : events.events.length + gone.length ≤ events.capacity)
      (hmem : ∀ q, q ∈ gone.map Prod.fst ↔ ∃ o, e.market.offers q = some o ∧ o.request = r) :
      Turn e now events (.rejectRequest r) (e.done w')
  | accepted {r : ReqIdx} {expected : List ExpectedFill} {acc : Acceptance} {fills : List Fill}
      {gone : List (QuoteIdx × Offer)} {w₁ w' : Work} (hchecked : Checked e r now events fills acc)
      (haccepted : Accepted e.config.maxQuotesPerLeg r now acc.record.auction acc.total
        (intentOf r acc) fills (e.ledger, events) w')
      (hparts : Parts now .outbid gone (fills.map Fill.quote) (e.ledger, events) w₁)
      (hoffers : w'.1.market.offers = w₁.1.market.offers)
      (hintent : w'.2 = w₁.2.push (intentOf r acc))
      (hroom : events.events.length + gone.length + 1 ≤ events.capacity)
      (hmem : ∀ q, q ∈ gone.map Prod.fst ↔
        (∃ o, e.market.offers q = some o ∧ o.request = r) ∧ q ∉ fills.map Fill.quote) :
      Turn e now events (.acceptRequest r expected) (e.done w')
  | escrowed {r : ReqIdx} {a : Auction} {nonce : Nonce} {gone : List (QuoteIdx × Offer)}
      {w' : Work} (hnonce : Nonce.of r = nonce) (ha : e.market.auctions r = some a)
      (hsettling : a.IsSettling) (hvacates : Ledger.Vacates (e.ledger, events) r gone w')
      (htold : w'.2.events = events.events ++ [.requestEscrowed r nonce]) :
      Turn e now events (.pollSettlement nonce .settled) (e.done w')
  | failed {r : ReqIdx} {a : Auction} {nonce : Nonce} {gone : List (QuoteIdx × Offer)}
      {w' : Work} (hnonce : Nonce.of r = nonce) (ha : e.market.auctions r = some a)
      (hsettling : a.IsSettling) (hvacates : Ledger.Vacates (e.ledger, events) r gone w')
      (htold : w'.2.events = events.events ++ gone.map Ledger.failedNotice ++
        [.requestSettlementFailed r nonce]) :
      Turn e now events (.pollSettlement nonce .reverted) (e.done w')

variable {answer : Answer} {config : Config}

theorem turn_of_market (hends : answer.1 = .ok () → ¬ Ends command)
    (hmarket : answer.2.1.market = e.market) (hmutters : Mutters events answer.2.2) :
    Turn e now events command answer :=
  have hsteps : Market.Steps now .calm e.market answer.2.1.market := hmarket ▸ .refl _
  .idle hends hsteps (fun r => ⟨by simp, by simp, by simp⟩) (by rw [hmarket]) hmutters

theorem turn_refused {err : EngineError} : Turn e now events command (e.refuse events err) :=
  turn_of_market (fun hok => nomatch hok) rfl (.refl events)

theorem Sane.turn_creditAccount {account free : Nat} (h : e.Sane) :
    Turn e now events (.creditAccount account free)
      (e.perform (.creditAccount account free) now events) := by
  simp only [Engine.perform, Ledger.applyMirrorUpdate]
  cases hm : e.ledger.account account with
  | none => exact turn_refused
  | some m =>
      have hcarried : Ledger.Carried e.config.maxQuotesPerLeg now _ (e.ledger, events) _ :=
        h.applyMirrorUpdate account free
      have hsteps := hcarried.steps
      exact .idle (by simp [Ends]) hsteps (fun r => ⟨by simp, by simp, by simp⟩) rfl (.refl events)

theorem turn_registerContract {contract eventDate : Nat} :
    Turn e now events (.registerContract contract eventDate)
      (e.perform (.registerContract contract eventDate) now events) := by
  have hsame := market_registerContract e.ledger contract eventDate
  rw [Engine.perform]
  split
  next heq =>
    rw [heq] at hsame
    exact turn_of_market (by simp [Ends]) hsame (.refl events)
  next heq =>
    rw [heq] at hsame
    exact turn_of_market (by simp [Ends]) hsame (.refl events)

theorem Sane.turn_submitRequest {requester deadline : Nat} {specs : List LegSpec} (h : e.Sane) :
    Turn e now events (.submitRequest requester deadline specs)
      (e.submitRequest requester deadline specs now events) := by
  have hmutters : Mutters events (e.submitRequest requester deadline specs now events).2.2 := by
    rcases h.submitRequest_cases with ⟨err, heq⟩ | ⟨total, r, c, l₂, -, heq⟩
    · exact heq ▸ .refl events
    · rw [heq]
      exact EventBuffer.mutters_push ⟨rfl, rfl⟩
  rcases h.healthy.submitRequest h.config.legs with ⟨err, heq⟩ | ⟨w', heq, hcarried, hone⟩
  · exact heq ▸ turn_refused
  · rw [heq] at hmutters ⊢
    exact .idle (by simp [Ends]) hcarried.steps (fun r => ⟨by simp, by simp, by simp⟩) hone.offers
      hmutters

theorem turn_reportOracleStatus {contract : Nat} {status : OracleStatus} :
    Turn e now events (.reportOracleStatus contract status)
      (e.reportOracleStatus contract status events) := by
  unfold reportOracleStatus
  split
  · exact turn_refused
  split
  · exact turn_refused
  split
  · exact turn_refused
  · refine turn_of_market (by simp [Ends]) rfl ?_
    show Mutters events ((resolution contract status).foldl EventBuffer.push events)
    cases status with
    | final outcome => exact EventBuffer.mutters_push ⟨rfl, rfl⟩
    | _ => exact .refl events

theorem turn_settleEscrow {escrow contract : Nat} :
    Turn e now events (.settleEscrow escrow contract)
      (e.settleEscrow escrow contract now events) := by
  unfold settleEscrow
  split
  · exact turn_refused
  split
  · exact turn_refused
  split
  · exact turn_refused
  · exact turn_of_market (by simp [Ends]) rfl (EventBuffer.mutters_push ⟨rfl, rfl⟩)

theorem Sane.turn_pollSettlement {nonce : Nonce} {status : TxStatus} (h : e.Sane)
    (hp : e.market.Placed) :
    Turn e now events (.pollSettlement nonce status)
      (e.pollSettlement nonce status now events) := by
  unfold pollSettlement
  split
  · exact turn_refused
  next r hresolve =>
  split
  · exact turn_refused
  next y hy =>
  split
  next nonce' d hstate =>
    split
    · exact turn_refused
    next heq =>
    obtain rfl : nonce' = nonce := by simpa using heq
    have ha := Ledger.market_auctions hy
    have hsettling : y.auction.IsSettling := ⟨nonce', d, hstate⟩
    have hnonce := Ledger.resolveNonce_eq hresolve
    split
    all_goals try
      split
      · exact turn_of_market (by simp [Ends, TxStatus.isTerminal]) rfl (.refl events)
      split
      · exact turn_refused
      exact turn_of_market (by simp [Ends, TxStatus.isTerminal]) rfl
        (EventBuffer.mutters_push ⟨rfl, rfl⟩)
    · split
      · exact turn_refused
      next hroom =>
      have hroom : events.events.length + 1 ≤ events.capacity := by
        simpa [EventBuffer.headroom] using hroom
      obtain ⟨gone, hvacates⟩ := h.healthy.settleRequest_vacates nonce' events now hp ha
        hsettling
      refine .escrowed hnonce ha hsettling hvacates ?_
      show (events.push (.requestEscrowed r nonce')).events = _
      rw [EventBuffer.push_of_room (by omega)]
    · split
      · exact turn_refused
      next hroom =>
      have hroom : events.events.length + (y.nLegs + 1) ≤ events.capacity := by
        simpa [EventBuffer.headroom] using hroom
      obtain ⟨gone, hcount, hvacates, hpushed⟩ := h.healthy.failRequest_vacates nonce' events now
        hp ha hsettling
      have hlen : y.auction.legs.length = y.nLegs := by simp [Request.nLegs, Request.auction]
      have htells : Tells (gone.map Ledger.failedNotice ++ [.requestSettlementFailed r nonce'])
          events (e.failRequest r nonce' events).2 := by
        rw [hpushed]
        exact (EventBuffer.tells_foldl _).trans EventBuffer.tells_push
      refine .failed hnonce ha hsettling hvacates ?_
      rw [List.append_assoc]
      refine htells.events ?_
      rw [List.length_append, List.length_map, List.length_singleton]
      omega
  next => exact turn_refused

theorem Sane.turn_rejectRequest (h : e.Sane) :
    Turn e now events (.rejectRequest r) (e.rejectRequest r now events) := by
  by_cases hok : (e.rejectRequest r now events).1 = .ok ()
  · obtain ⟨y, gone, w', heq, -, -, hparts, hroom, hmem⟩ :=
      h.healthy.rejectRequest_parts rfl h.config.quotesPerLeg hok
    rw [heq]
    exact .rejected hparts hroom hmem
  · rcases h.healthy.rejectRequest (r := r) h.config.quotesPerLeg with ⟨err, heq⟩ | ⟨w', heq, -⟩
    · exact heq ▸ turn_refused
    · exact absurd (congrArg Prod.fst heq) hok

theorem Sane.turn_acceptRequest {expected : List ExpectedFill} (h : e.Sane) :
    Turn e now events (.acceptRequest r expected) (e.acceptRequest r expected now events) := by
  by_cases hok : (e.acceptRequest r expected now events).1 = .ok ()
  · obtain ⟨acc, fills, gone, w₁, w', heq, hchecked, haccepted, hparts, hoffers, hintent, hroom,
      hmem⟩ := h.healthy.acceptRequest_parts rfl h.config.quotesPerLeg hok
    rw [heq]
    exact .accepted hchecked haccepted hparts hoffers hintent hroom hmem
  · unfold Engine.acceptRequest at hok ⊢
    split
    · exact turn_refused
    next acc hcheck =>
      rw [hcheck] at hok
      exact absurd rfl hok

/-- Every command. -/
theorem Sane.turn (command : Command) (now : Nat) (events : EventBuffer) (h : e.Sane)
    (hp : e.market.Placed) : Turn e now events command (e.perform command now events) := by
  cases command with
  | creditAccount account free => exact h.turn_creditAccount
  | registerContract contract eventDate => exact turn_registerContract
  | submitRequest requester deadline specs => exact h.turn_submitRequest
  | rejectRequest r => exact h.turn_rejectRequest
  | submitQuote maker r i price size expiresAt =>
      obtain ⟨gone, fresh, hbids⟩ := h.bids hp.sited
      exact .bid hbids
  | cancelQuote q =>
      rw [Engine.perform]
      split <;> exact turn_refused
  | acceptRequest r expected => exact h.turn_acceptRequest
  | pollSettlement nonce status => exact h.turn_pollSettlement hp
  | reportOracleStatus contract status => exact turn_reportOracleStatus
  | settleEscrow escrow contract => exact turn_settleEscrow

-- ============================================================================
-- Every stored quote keeps its place
-- ============================================================================

/-- What is stored after a submission was stored before and stays, or is the new quote. -/
theorem Bids.cases {o : Offer} {gone : List (QuoteIdx × Offer)} {fresh : Option QuoteIdx}
    (hbids : Bids e o events gone fresh answer) (q : QuoteIdx) (o' : Offer)
    (ho' : answer.2.1.market.offers q = some o') :
    e.market.offers q = some o' ∧ q ∉ gone.map Prod.fst ∨ fresh = some q ∧ o' = o := by
  rw [hbids.offers] at ho'
  split at ho'
  next hfresh => exact .inr ⟨hfresh, (Option.some.inj ho').symm⟩
  next =>
    split at ho'
    · cases ho'
    next hstays => exact .inl ⟨ho', hstays⟩

/-- The new quote is on an open request, without a rival. -/
theorem Bids.lone {o : Offer} {gone : List (QuoteIdx × Offer)} {fresh : Option QuoteIdx}
    {scope : Scope} {q : QuoteIdx} (hbids : Bids e o events gone fresh answer)
    (hsteps : Market.Steps now scope e.market answer.2.1.market) (hspares : ∀ r, scope.Spares r)
    (hfresh : fresh = some q) :
    (∃ a, answer.2.1.market.auctions o.request = some a ∧ a.state = .opened) ∧
      ∀ q' o', answer.2.1.market.offers q' = some o' → o'.state = .active → o'.Rivals o → q' = q := by
  obtain ⟨a, ha, hopened⟩ := hbids.opened (by simp [hfresh])
  refine ⟨hsteps.opened_of_spared ha hopened (hspares _), fun q' o' ho' hs hrivals => ?_⟩
  rcases hbids.cases q' o' ho' with ⟨hold, hstays⟩ | ⟨hfresh', -⟩
  · exact absurd (hbids.alone (by simp [hfresh]) q' o' hold hs hrivals) hstays
  · exact Option.some.inj (hfresh'.symm.trans hfresh)

theorem Bids.placed {o : Offer} {gone : List (QuoteIdx × Offer)} {fresh : Option QuoteIdx}
    {scope : Scope} (hbids : Bids e o events gone fresh answer) (ho : o.state = .active)
    (hp : e.market.Placed) (hsteps : Market.Steps now scope e.market answer.2.1.market)
    (hspares : ∀ r, scope.Spares r) : answer.2.1.market.Placed := by
  refine hp.extend (fun q o' => fresh = some q ∧ o' = o) hsteps (fun q o' ho' => ?_) ?_ ?_
  · rcases hbids.cases q o' ho' with ⟨hold, -⟩ | hnew
    · exact .inl ⟨hold, hspares _⟩
    · exact .inr hnew
  · rintro q o' ⟨hfresh, rfl⟩ -
    exact hbids.lone hsteps hspares hfresh
  · rintro q o' ⟨-, rfl⟩ hs
    rw [ho] at hs
    cases hs

/-- What an accept leaves: the offers of other requests, and its winners, consumed. -/
theorem offers_of_accepted {acc : Acceptance} {fills : List Fill} {gone : List (QuoteIdx × Offer)}
    {w₁ w' : Work} (hchecked : Checked e r now events fills acc)
    (hparts : Parts now .outbid gone (fills.map Fill.quote) (e.ledger, events) w₁)
    (hoffers : w'.1.market.offers = w₁.1.market.offers)
    (hmem : ∀ q, q ∈ gone.map Prod.fst ↔
      (∃ o, e.market.offers q = some o ∧ o.request = r) ∧ q ∉ fills.map Fill.quote)
    (q : QuoteIdx) (o : Offer) (ho : w'.1.market.offers q = some o) :
    e.market.offers q = some o ∧ o.request ≠ r ∨ ∃ f ∈ fills, f.quote = q ∧ o = f.offer.consume := by
  rw [hoffers, hparts.sheds.offers] at ho
  split at ho
  · cases ho
  next hstays =>
  split at ho
  next hwon =>
    obtain ⟨f, hf, rfl⟩ := List.mem_map.mp hwon
    obtain ⟨j, hj⟩ := List.mem_iff_getElem?.mp hf
    have hfit : e.ledger.market.offers f.quote = some f.offer :=
      (hchecked.wins j f hj).fits.onLeg.offer
    have ho : (e.ledger.market.offers f.quote).map Offer.consume = some o := ho
    rw [hfit, Option.map_some, Option.some.injEq] at ho
    exact .inr ⟨f, hf, rfl, ho.symm⟩
  next hlost =>
    refine .inl ⟨ho, fun hr => hstays ?_⟩
    exact (hmem q).mpr ⟨⟨o, ho, hr⟩, hlost⟩

/-- A winner is the only one of its leg. -/
theorem fill_alone {acc : Acceptance} {fills : List Fill} {m' : Market}
    (hchecked : Checked e r now events fills acc)
    (hcases : ∀ q o, m'.offers q = some o →
      e.market.offers q = some o ∧ o.request ≠ r ∨ ∃ f ∈ fills, f.quote = q ∧ o = f.offer.consume)
    {f : Fill} (hf : f ∈ fills) (q' : QuoteIdx) (o' : Offer) (ho' : m'.offers q' = some o')
    (hr : o'.request = f.offer.consume.request) (hleg : o'.leg = f.offer.consume.leg) :
    q' = f.quote := by
  obtain ⟨j, hj⟩ := List.mem_iff_getElem?.mp hf
  have hfit := (hchecked.wins j f hj).fits.onLeg
  rcases hcases q' o' ho' with ⟨-, hne⟩ | ⟨g, hg, rfl, rfl⟩
  · exact absurd (hr.trans hfit.request) hne
  · obtain ⟨j', hj'⟩ := List.mem_iff_getElem?.mp hg
    have hfit' := (hchecked.wins j' g hj').fits.onLeg
    have hsame : j' = j := hfit'.leg.symm.trans (Eq.trans hleg hfit.leg)
    rw [hsame, hj, Option.some.injEq] at hj'
    rw [hj']

theorem placed_of_accepted {acc : Acceptance} {fills : List Fill}
    {gone : List (QuoteIdx × Offer)} {w₁ w' : Work} (hb : e.market.Backed now) (hp : e.market.Placed)
    (hchecked : Checked e r now events fills acc)
    (haccepted : Accepted e.config.maxQuotesPerLeg r now acc.record.auction acc.total
      (intentOf r acc) fills (e.ledger, events) w')
    (hparts : Parts now .outbid gone (fills.map Fill.quote) (e.ledger, events) w₁)
    (hoffers : w'.1.market.offers = w₁.1.market.offers)
    (hmem : ∀ q, q ∈ gone.map Prod.fst ↔
      (∃ o, e.market.offers q = some o ∧ o.request = r) ∧ q ∉ fills.map Fill.quote) :
    w'.1.market.Placed := by
  have hcases := offers_of_accepted hchecked hparts hoffers hmem
  refine hp.extend (fun q o => ∃ f ∈ fills, f.quote = q ∧ o = f.offer.consume)
    haccepted.steps (fun q o ho => ?_) ?_ ?_
  · rcases hcases q o ho with ⟨hold, hne⟩ | hnew
    · exact .inl ⟨hold, by simpa using Ne.symm hne, by simp, by simp⟩
    · exact .inr hnew
  · rintro q o ⟨f, -, -, rfl⟩ hs
    cases hs
  · rintro q o ⟨f, hf, rfl, rfl⟩ -
    obtain ⟨j, hj⟩ := List.mem_iff_getElem?.mp hf
    have hrequest : f.offer.consume.request = r := (hchecked.wins j f hj).fits.onLeg.request
    refine ⟨?_, fun q' o' ho' _ hr hleg => fill_alone hchecked hcases hf q' o' ho' hr hleg⟩
    -- the winner was live, so its claim was on record and is committed now
    obtain ⟨ks, hks, hexact⟩ := haccepted.adds
    obtain rfl := hexact hb fun g hg => by
      obtain ⟨j, hj⟩ := List.mem_iff_getElem?.mp hg
      exact (hchecked.wins j g hj).live
    obtain ⟨hs, c, hc⟩ := hks.added (f.claim r)
      (List.mem_append.mpr (.inl (List.mem_map_of_mem hf)))
    rw [hrequest]
    exact ⟨c, f.claim r, hc, rfl, hs⟩

theorem placed_of_vacates {r : ReqIdx} {a : Auction} {gone : List (QuoteIdx × Offer)} {w' : Work}
    {scope : Scope} (h : e.Sane) (hp : e.market.Placed) (ha : e.market.auctions r = some a)
    (hsettling : a.IsSettling) (hvacates : Ledger.Vacates (e.ledger, events) r gone w')
    (hsteps : Market.Steps now scope e.market w'.1.market)
    (hspares : ∀ r', r' ≠ r → scope.Spares r') : w'.1.market.Placed := by
  refine hp.spared hsteps fun q o ho => ?_
  rw [hvacates.sheds.offers] at ho
  split at ho
  · cases ho
  next hstays =>
  rw [if_neg (by simp)] at ho
  refine ⟨ho, hspares _ fun hr => ?_⟩
  cases hs : o.state with
  | consumed => exact hstays ((hvacates.mem q).mpr ⟨o, ho, hr, hs⟩)
  | released => exact h.healthy.coherent.standing q o ho hs
  | active =>
      obtain ⟨a', ha', hopened⟩ := hp.active q o ho hs
      obtain ⟨n, d, hset⟩ := hsettling
      rw [hr, ha, Option.some.injEq] at ha'
      rw [ha', hopened] at hset
      cases hset

theorem Turn.placed (hturn : Turn e now events command answer) (h : e.Sane)
    (hb : e.market.Backed now) (hp : e.market.Placed)
    (hsteps : ∃ scope, scope.For e.market command ∧
      Market.Steps now scope e.market answer.2.1.market) : answer.2.1.market.Placed := by
  obtain ⟨scope, hfor, hsteps⟩ := hsteps
  -- the scope of a resolution spares every other request
  have hresolving : ∀ {r : ReqIdx} {nonce : Nonce} {status : TxStatus}, Nonce.of r = nonce →
      scope.For e.market (.pollSettlement nonce status) → ∀ r', r' ≠ r → scope.Spares r' := by
    rintro r nonce status hnonce (rfl | ⟨r'', rfl, hnonce', -⟩) r' hne
    · exact ⟨by simp, by simp, by simp⟩
    · obtain rfl := Nonce.of_injective (hnonce.trans hnonce'.symm)
      exact ⟨by simp, by simp, by simpa using Ne.symm hne⟩
  cases hturn with
  | idle _ hsteps hspares hoffers _ =>
      exact hp.spared hsteps fun q o ho => ⟨hoffers ▸ ho, hspares _⟩
  | bid hbids =>
      refine hbids.placed rfl hp hsteps fun r => ?_
      rcases hfor with rfl | ⟨q, o, rfl, -⟩ <;> exact ⟨by simp, by simp, by simp⟩
  | rejected hparts hroom hmem =>
      obtain rfl := hfor
      refine hp.spared hsteps fun q o ho => ?_
      have ho : _ = some o := (hparts.sheds.offers q).symm.trans ho
      split at ho
      · cases ho
      next hstays =>
      rw [if_neg (by simp)] at ho
      refine ⟨ho, by simp, ?_, by simp⟩
      rintro ⟨-⟩
      exact hstays ((hmem q).mpr ⟨o, ho, rfl⟩)
  | accepted hchecked haccepted hparts hoffers _ _ hmem =>
      exact placed_of_accepted hb hp hchecked haccepted hparts hoffers hmem
  | escrowed hnonce ha hsettling hvacates _ =>
      exact placed_of_vacates h hp ha hsettling hvacates hsteps (hresolving hnonce hfor)
  | failed hnonce ha hsettling hvacates _ =>
      exact placed_of_vacates h hp ha hsettling hvacates hsteps (hresolving hnonce hfor)

theorem placed_new (h : Engine.new config = .ok e) : e.market.Placed := by
  obtain ⟨-, rfl⟩ := new_eq_ok h
  exact Market.placed_of_none fun q => by
    show (Ledger.new config).market.offers q = none
    rw [(market_new config).2.2]

/-- Expired claims are no winner's. -/
theorem Normalised.placed {n : Engine} (hn : Normalised now e n) (hp : e.market.Placed) :
    n.market.Placed :=
  hp.spared (hn.steps .calm) fun q o ho => ⟨hn.offers ▸ ho, by simp, by simp, by simp⟩

/-- While instants never go back every stored quote is in its place. -/
theorem ReachableAt.placed (h : ReachableAt config now e) : e.market.Placed := by
  induction h with
  | new now h => exact placed_new h
  | @step e now h input hnow ih =>
      have hn := h.sane.normalised input.command input.now
      have hb := (h.backed.mono hnow).steps_of h.sane.healthy.coherent (hn.steps .calm) rfl
      obtain ⟨scope, hfor, hadv⟩ :=
        hn.sane.advances input.command input.now (.withCapacity input.capacity)
      exact (hn.sane.turn input.command input.now (.withCapacity input.capacity)
        (hn.placed ih)).placed hn.sane hb (hn.placed ih) ⟨scope, hfor, hadv.steps⟩

end Engine

end RfqSettlement
