/-
  RfqSettlement.Core.Discharging

  What a resolved settlement takes off the books, exactly.

  The claims that go are those of the request's committed list, the quotes that go are
  its winners, one on each leg; `Unwinds` says so and that nothing else changes.  A
  winner is there for every leg (`Market.Filled`).
-/

import RfqSettlement.Core.Notices
import RfqSettlement.Core.Sites
import RfqSettlement.Core.Normalisation
import RfqSettlement.Core.Standing

namespace RfqSettlement

-- ============================================================================
-- What a discharge takes
-- ============================================================================

namespace Book

variable {request : ReqIdx} {b b' : Book} {gone : List (ResIdx × Claim)}

/-- The quotes whose claims go lose them. -/
theorem Discharged.quotes (h : Discharged request b gone b') (quote : QuoteIdx) :
    b'.quotes quote = (b.quotes quote).map fun q =>
      if .quote quote ∈ gone.map (fun v => v.2.owner) then q.setClaim none else q := by
  induction h with
  | nil => simp
  | @cons b b' claim k gone hk hs _ _ rest ih =>
      have hstep : (b.discharge claim k).quotes quote = (b.quotes quote).map fun q =>
          if .quote quote = k.owner then q.setClaim none else q := by
        simp only [discharge, dropClaim]
        cases k.owner with
        | request r => simp [setOwnerClaim, modifyRequest, modifyTotals]
        | quote q =>
            simp only [setOwnerClaim, modifyQuote, modifyTotals, Function.update_apply,
              ResOwner.quote.injEq]
            split
            next heq => rw [heq]
            next => simp
      rw [ih, hstep, Option.map_map]
      congr 1
      funext q
      simp only [Function.comp, List.map_cons, List.mem_cons]
      split_ifs <;> first | rfl | tauto

/-- So do the requests. -/
theorem Discharged.requests (h : Discharged request b gone b') (r : ReqIdx) :
    b'.requests r = (b.requests r).map fun q =>
      if .request r ∈ gone.map (fun v => v.2.owner) then q.setClaim none else q := by
  induction h with
  | nil => simp
  | @cons b b' claim k gone hk hs _ _ rest ih =>
      have hstep : (b.discharge claim k).requests r = (b.requests r).map fun q =>
          if .request r = k.owner then q.setClaim none else q := by
        simp only [discharge, dropClaim]
        cases k.owner with
        | quote q => simp [setOwnerClaim, modifyQuote, modifyTotals]
        | request r' =>
            simp only [setOwnerClaim, modifyRequest, modifyTotals, Function.update_apply,
              ResOwner.request.injEq]
            split
            next heq => rw [heq]
            next => simp
      rw [ih, hstep, Option.map_map]
      congr 1
      funext q
      simp only [Function.comp, List.map_cons, List.mem_cons]
      split_ifs <;> first | rfl | tauto

end Book

namespace Ledger

variable {l l' : Ledger} {request : ReqIdx} {gone : List (ResIdx × Claim)} {max : Nat}

/-- A request's committed list, by index. -/
def committedList (l : Ledger) (request : ReqIdx) : List Nat :=
  l.chainFrom l.reservations.capacity (((l.request request).map fun r => r.committedHead).getD none)

/-- What the claims in `gone` add to an account's committed total. -/
def dueFrom (gone : List (ResIdx × Claim)) (account : Nat) : Nat :=
  ((gone.filter fun v => v.2.account = account).map fun v => v.2.amount).sum

/-- `l'` is `l` without the claims `gone` of the committed list of `request`. -/
structure Empties (l : Ledger) (request : ReqIdx) (gone : List (ResIdx × Claim)) (l' : Ledger) :
    Prop where
  listed : gone.map (fun v => v.1.index) = l.committedList request
  nodup : (gone.map Prod.fst).Nodup
  held : ∀ claim k, (claim, k) ∈ gone ↔ ∃ r, l.reservation claim = some r ∧ k = r.toClaim ∧
    r.committedTo = some request
  claims : ∀ claim, l'.reservation claim =
    if claim ∈ gone.map Prod.fst then none else l.reservation claim
  accounts : ∀ account, l.account account = (l'.account account).map fun m =>
    { m with committed := m.committed + dueFrom gone account }
  requests : ∀ r, l'.request r = if r = request
    then (l.request request).map fun q => { q with committedHead := none, claim := none }
    else l.request r
  quotes : ∀ quote, l'.quote quote = (l.quote quote).map fun q =>
    if .quote quote ∈ gone.map (fun v => v.2.owner) then q.setClaim none else q
  contracts : l'.contracts = l.contracts

theorem dueFrom_eq (hs : ∀ v ∈ gone, v.2.status = .committed request) (account : Nat) :
    dueFrom gone account = (gone.map fun v => v.2.committedOn request account).sum := by
  induction gone with
  | nil => rfl
  | cons v gone ih =>
      have hrest := ih fun v' hv' => hs v' (by simp [hv'])
      have hv := hs v (by simp)
      unfold dueFrom at hrest ⊢
      rw [List.map_cons, List.sum_cons, ← hrest, List.filter_cons]
      by_cases ha : v.2.account = account
      · simp [Claim.committedOn, hv, ha]
      · simp [Claim.committedOn, ha]

theorem committedList_of_threads {E : Nat → List Nat} {C : ReqIdx → List Nat} {y : Request}
    (ht : l.links.Threads none E C) (hy : l.request request = some y) :
    l.committedList request = C request := by
  obtain ⟨hhead, hseg⟩ := ht.list request y.committedHead (by simp [links, hy])
  rw [committedList, hy, Option.map_some, Option.getD_some, hhead]
  refine chainFrom_of_segment hseg (length_le_capacity (ht.list_nodup request) fun i hi => ?_)
  obtain ⟨k, hk, -⟩ := ht.claim_of_mem_list hi
  obtain ⟨r, hr, -⟩ := Option.map_eq_some_iff.mp hk
  simp [hr]

theorem account_of {account : Nat} {t : Totals} {head tail : Link}
    (hbook : l.book.totals account = some t) (hlinks : l.links.ends account = some (head, tail)) :
    l.account account = some ⟨t.free, t.reserved, t.committed, head, tail⟩ := by
  obtain ⟨m, hm, rfl⟩ := Option.map_eq_some_iff.mp hbook
  simp only [links, hm, Option.map_some, Option.some.injEq, Prod.mk.injEq] at hlinks
  rw [hm, ← hlinks.1, ← hlinks.2]
  rfl

/-- Discharging a settling request empties its committed list. -/
theorem Healthy.empties {a : Auction} (h : l.Healthy max none)
    (ha : l.market.auctions request = some a) (hsettling : a.IsSettling) :
    ∃ gone, Empties l request gone (CommitPhase.dischargeCommitted l request).2 := by
  obtain ⟨E, C, ht⟩ := h.intact.wired.threads
  obtain ⟨y, hy, -⟩ := request_of_market ha
  have hown := h.own_committed ha hsettling
  obtain ⟨gone, l', heq, hi', hd, hkept, hnone, hlisted, hlinks⟩ :=
    h.intact.dischargeCommitted_links ht hown
  obtain ⟨hnodup, hcommitted, hexact⟩ := hd.exact
  have hstored : ∀ v ∈ gone, ∃ r, l.reservation v.1 = some r ∧ r.toClaim = v.2 := fun v hv =>
    reservation_of_claims ((hexact v.1 v.2).mpr (.inl hv))
  rw [heq]
  refine ⟨gone, ?_, hnodup, fun claim k => ⟨fun hmem => ?_, ?_⟩, fun claim => ?_, fun account => ?_,
    fun r => ?_, fun quote => hd.quotes quote, hkept.contracts⟩
  · rw [hlisted, committedList_of_threads ht hy]
  · obtain ⟨r, hr, hk⟩ := hstored _ hmem
    exact ⟨r, hr, hk.symm, Reservation.committedTo_eq_some.mpr (hk ▸ hcommitted _ hmem)⟩
  · rintro ⟨r, hr, rfl, hto⟩
    rcases (hexact claim r.toClaim).mp (book_claims hr) with hmem | hleft
    · exact hmem
    · exact absurd (Reservation.committedTo_eq_some.mp hto) (hnone claim _ hleft)
  · split
    next hmem =>
      obtain ⟨v, hv, rfl⟩ := List.mem_map.mp hmem
      cases hr : l'.reservation v.1 with
      | none => rfl
      | some r =>
          have hleft := book_claims hr
          have hsame := ((hexact v.1 _).mpr (.inr hleft)).symm.trans ((hexact v.1 v.2).mpr (.inl hv))
          exact absurd (Option.some.inj hsame ▸ hcommitted v hv) (hnone v.1 _ hleft)
    next hmem =>
      cases hr : l.reservation claim with
      | none =>
          cases hr' : l'.reservation claim with
          | none => rfl
          | some r' =>
              have hold := (hexact claim _).mpr (.inr (book_claims hr'))
              simp [book, hr] at hold
      | some r =>
          have hnot : claim.index ∉ C request := by
            rw [← hlisted]
            intro hindex
            obtain ⟨v, hv, hsame⟩ := List.mem_map.mp hindex
            obtain ⟨r', hr', -⟩ := hstored v hv
            have heq : v.1 = claim := Slab.eq_of_index_eq (s := l.reservations)
              (by rw [show l.reservations.get v.1 = some r' from hr']; rfl)
              (by rw [show l.reservations.get claim = some r from hr]; rfl) hsame
            exact hmem (heq ▸ List.mem_map_of_mem hv)
          refine reservation_ext ?_ ?_
          · rcases (hexact claim _).mp (book_claims hr) with hgone | hleft
            · exact absurd (List.mem_map_of_mem hgone) hmem
            · exact hleft
          · have hat : l.reservationAt claim.index = some r := Slab.valueAt_of_get hr
            rw [hlinks]
            simp [LinkView.dropList, LinkView.erase, hnot, links, hat]
  · have hends : l'.links.ends account = l.links.ends account := by rw [hlinks]; rfl
    cases hm : l.account account with
    | none =>
        have hsome : (l'.account account).isSome = (l.account account).isSome := by
          rw [← isSome_ends, hends, isSome_ends]
        rw [hm, Option.isSome_none, Option.isSome_eq_false_iff, Option.isNone_iff_eq_none] at hsome
        rw [hsome]
        rfl
    | some m =>
        obtain ⟨t', ht', hfree, hreserved, hsum⟩ := hd.totals (book_totals hm)
        have hends' : l'.links.ends account = some (m.expiryHead, m.expiryTail) := by
          rw [hends]
          simp [links, hm]
        have hm' := account_of ht' hends'
        rw [hm', Option.map_some, dueFrom_eq hcommitted, ← hsum, hfree, hreserved]
        rfl
  · by_cases hr : r = request
    · subst hr
      rw [if_pos rfl, hy, Option.map_some]
      refine request_ext ?_ ?_
      · rw [hd.requests, book_requests hy, Option.map_some, Option.map_some]
        congr 1
        split
        · rfl
        next hmem =>
          have hclaim : y.claim = none := by
            cases hc : y.claim with
            | none => rfl
            | some c =>
                have howner : l.book.ownerClaim (.request r) = some (some c) := by
                  rw [ownerClaim_book]
                  simp [Ledger.ownerClaim, hy, hc]
                obtain ⟨k, hk, hs⟩ := hown c howner
                obtain ⟨k', hk', howner'⟩ := h.intact.balanced.holder _ _ howner
                obtain rfl := Option.some.inj (hk.symm.trans hk')
                rcases (hexact c k).mp hk with hgone | hleft
                · exact absurd (List.mem_map.mpr ⟨_, hgone, howner'⟩) hmem
                · exact absurd hs (hnone c k hleft)
          simp [Request.unlinked, hclaim]
      · rw [hlinks]
        simp [LinkView.dropList, links, hy]
    · rw [if_neg hr]
      refine request_ext ?_ ?_
      · have hmem : .request r ∉ gone.map fun v => v.2.owner := by
          intro hmem
          obtain ⟨v, hv, howner⟩ := List.mem_map.mp hmem
          obtain ⟨a', -, hb⟩ :=
            h.coherent.auctioned v.1 v.2 r ((hexact v.1 v.2).mpr (.inl hv)) howner
          exact hr (hb.committed request (hcommitted v hv)).symm
        rw [hd.requests]
        simp only [hmem, if_false, Option.map_id']
        rfl
      · rw [hlinks]
        simp [LinkView.dropList, links, Function.update_of_ne hr]

-- ============================================================================
-- What a resolution comes to
-- ============================================================================

/-- `l'` is `l` once the settlement of `request` is resolved to `state`: the claims
    `gone` of its committed list and its winning quotes `won` are no more. -/
structure Unwinds (l : Ledger) (request : ReqIdx) (state : RequestState)
    (gone : List (ResIdx × Claim)) (won : List (QuoteIdx × Quote)) (l' : Ledger) : Prop where
  listed : gone.map (fun v => v.1.index) = l.committedList request
  nodup : (gone.map Prod.fst).Nodup
  held : ∀ claim k, (claim, k) ∈ gone ↔ ∃ r, l.reservation claim = some r ∧ k = r.toClaim ∧
    r.committedTo = some request
  claims : ∀ claim, l'.reservation claim =
    if claim ∈ gone.map Prod.fst then none else l.reservation claim
  accounts : ∀ account, l.account account = (l'.account account).map fun m =>
    { m with committed := m.committed + dueFrom gone account }
  requests : ∀ r, l'.request r = if r = request
    then (l.request request).map fun q => { q with state, committedHead := none, claim := none }
    else l.request r
  distinct : (won.map Prod.fst).Nodup
  winners : ∀ quote q, (quote, q) ∈ won ↔
    l.quote quote = some q ∧ q.request = request ∧ q.state = .consumed
  quotes : ∀ quote, l'.quote quote = if quote ∈ won.map Prod.fst then none else l.quote quote
  contracts : l'.contracts = l.contracts

/-- The quotes behind a list of offers. -/
theorem exists_quotes (lost : List (QuoteIdx × Offer))
    (h : ∀ v ∈ lost, l.market.offers v.1 = some v.2) :
    ∃ won : List (QuoteIdx × Quote), won.map (fun v => (v.1, v.2.offer)) = lost ∧
      ∀ v ∈ won, l.quote v.1 = some v.2 := by
  induction lost with
  | nil => exact ⟨[], rfl, by simp⟩
  | cons v lost ih =>
      obtain ⟨x, hx, hoffer⟩ := quote_of_market (h v (by simp))
      obtain ⟨won, rfl, hwon⟩ := ih fun v' hv' => h v' (by simp [hv'])
      refine ⟨(v.1, x) :: won, by simp [hoffer], fun v' hv' => ?_⟩
      rcases List.mem_cons.mp hv' with rfl | hv'
      · exact hx
      · exact hwon v' hv'

/-- The ledger a resolution ends in, from the one its discharge ends in. -/
theorem Empties.unwinds {b : EventBuffer} {lost : List (QuoteIdx × Offer)} {w' : Work}
    {state : RequestState} {l₁ : Ledger} (h : l.Healthy max none)
    (hempties : Empties l request gone l₁) (hvacates : Vacates (l, b) request lost w')
    (hclaims : w'.1.reservations = l₁.reservations) (haccounts : w'.1.accounts = l₁.accounts)
    (hcontracts : w'.1.contracts = l₁.contracts)
    (hrequests : ∀ r, w'.1.request r =
      if r = request then (l₁.request request).map fun q => q.setState state else l₁.request r)
    (hquotes : ∀ quote, w'.1.quote quote = none ∨ w'.1.quote quote = l₁.quote quote) :
    ∃ won, won.map (fun v => (v.1, v.2.offer)) = lost ∧
      Unwinds l request state gone won w'.1 := by
  obtain ⟨won, hwon, hstored⟩ := exists_quotes lost hvacates.sheds.stored
  have hfst : lost.map Prod.fst = won.map Prod.fst := by
    rw [← hwon, List.map_map]
    rfl
  have hmem : ∀ quote, quote ∈ won.map Prod.fst ↔ Won l.market request quote := fun quote => by
    rw [← hfst]
    exact hvacates.mem quote
  refine ⟨won, hwon, hempties.listed, hempties.nodup, hempties.held, fun claim => ?_,
    fun account => ?_, fun r => ?_, hfst ▸ hvacates.sheds.nodup,
    fun quote q => ⟨fun hv => ?_, ?_⟩, fun quote => ?_, ?_⟩
  · rw [reservation_eq_of_reservations hclaims, hempties.claims]
  · rw [show w'.1.account account = l₁.account account from by
      simp only [Ledger.account, haccounts]]
    exact hempties.accounts account
  · rw [hrequests, hempties.requests, hempties.requests, if_pos rfl]
    split
    · rw [Option.map_map]
      rfl
    · rfl
  · have hq := hstored _ hv
    obtain ⟨o, ho, hr, hs⟩ := (hmem quote).mp (List.mem_map_of_mem hv)
    obtain rfl := Option.some.inj ((market_offers hq).symm.trans ho)
    exact ⟨hq, hr, hs⟩
  · rintro ⟨hq, hr, hs⟩
    obtain ⟨v, hv, rfl⟩ := List.mem_map.mp ((hmem quote).mpr ⟨q.offer, market_offers hq, hr, hs⟩)
    obtain rfl := Option.some.inj ((hstored v hv).symm.trans hq)
    exact hv
  · have hoffers := hvacates.sheds.offers quote
    rw [hfst] at hoffers
    split
    next hv =>
      rw [if_pos hv] at hoffers
      cases hq : w'.1.quote quote with
      | none => rfl
      | some x => cases (market_offers hq).symm.trans hoffers
    next hv =>
      rw [if_neg hv, if_neg (by simp)] at hoffers
      have howner : .quote quote ∉ gone.map fun v => v.2.owner := by
        intro howner
        obtain ⟨⟨claim, k⟩, hk, howner⟩ := List.mem_map.mp howner
        obtain ⟨r, hr, rfl, hto⟩ := (hempties.held claim k).mp hk
        obtain ⟨o, leg, ho, -, hb⟩ :=
          h.coherent.offered claim _ quote (market_claims hr) howner
        obtain ⟨hs, hreq⟩ := hb.committed request (Reservation.committedTo_eq_some.mp hto)
        exact hv ((hmem quote).mpr ⟨o, ho, hreq.symm, hs⟩)
      have hsame : l₁.quote quote = l.quote quote := by
        rw [hempties.quotes]
        simp only [howner, if_false, Option.map_id']
      rcases hquotes quote with hnone | hkept
      · cases hq : l.quote quote with
        | none => exact hnone
        | some x =>
            have hgone : w'.1.market.offers quote = none := congrArg (Option.map Quote.offer) hnone
            cases (market_offers hq).symm.trans (hoffers.symm.trans hgone)
      · exact hkept.trans hsame
  · exact hcontracts.trans hempties.contracts

theorem closeConsumedQuotes_quotes (l : Ledger) (request : ReqIdx) :
    ∃ quotes sound, Engine.closeConsumedQuotes l request = { l with quotes, sound } ∧
      ∀ quote, (Engine.closeConsumedQuotes l request).quote quote = none ∨
        (Engine.closeConsumedQuotes l request).quote quote = l.quote quote := by
  have hfold : ∀ (qs : List QuoteIdx) (l : Ledger), ∃ quotes sound,
      qs.foldl CommitPhase.closeQuote l = { l with quotes, sound } := by
    intro qs
    induction qs with
    | nil => exact fun l => ⟨l.quotes, l.sound, rfl⟩
    | cons q qs ih =>
        intro l
        obtain ⟨quotes, sound, heq⟩ := ih (CommitPhase.closeQuote l q)
        exact ⟨quotes, sound, heq⟩
  unfold Engine.closeConsumedQuotes
  dsimp only
  generalize ((l.quotes.iter.filter _).map Prod.fst).take MAX_LEGS = qs
  obtain ⟨quotes, sound, heq⟩ := hfold qs l
  refine ⟨quotes, sound, heq, fun quote => ?_⟩
  rw [quote_closeQuotes]
  split
  · exact .inl rfl
  · exact .inr rfl

variable {engine : Engine} {events : EventBuffer} {nonce : Nonce} {a : Auction}

theorem Healthy.settleRequest_unwinds (nonce : Nonce) (events : EventBuffer)
    (h : engine.ledger.Healthy max none) (hp : engine.ledger.market.Placed)
    (ha : engine.ledger.market.auctions request = some a) (hsettling : a.IsSettling) :
    ∃ gone won, Unwinds engine.ledger request .escrowed gone won
        (engine.settleRequest request nonce events).1 ∧
      (engine.settleRequest request nonce events).2 = events.push (.requestEscrowed request nonce) := by
  obtain ⟨gone, hempties⟩ := h.empties ha hsettling
  obtain ⟨lost, hvacates⟩ := h.settleRequest_vacates nonce events 0 hp ha hsettling
  unfold Engine.settleRequest at hvacates ⊢
  dsimp only at hvacates ⊢
  generalize (CommitPhase.dischargeCommitted engine.ledger request).2 = l₁ at hempties hvacates ⊢
  obtain ⟨quotes, sound, heq, hquotes⟩ :=
    closeConsumedQuotes_quotes (l₁.modifyRequest request fun r => r.setState .escrowed) request
  obtain ⟨won, -, hunwinds⟩ := hempties.unwinds h hvacates (by rw [heq]; rfl) (by rw [heq]; rfl)
    (by rw [heq]; rfl) (fun r => by rw [heq]; exact request_modifyRequest r) hquotes
  exact ⟨gone, won, hunwinds, rfl⟩

theorem Healthy.failRequest_unwinds (nonce : Nonce) (events : EventBuffer)
    (h : engine.ledger.Healthy max none) (hp : engine.ledger.market.Placed)
    (ha : engine.ledger.market.auctions request = some a) (hsettling : a.IsSettling) :
    ∃ gone won, Unwinds engine.ledger request .settlementFailed gone won
        (engine.failRequest request nonce events).1 ∧
      (engine.failRequest request nonce events).2 =
        ((won.map fun v => Event.quoteRejected v.1 v.2.maker .settlementFailed).foldl
          EventBuffer.push events).push (.requestSettlementFailed request nonce) := by
  obtain ⟨gone, hempties⟩ := h.empties ha hsettling
  obtain ⟨lost, -, hvacates, hpushed⟩ := h.failRequest_vacates nonce events 0 hp ha hsettling
  have hledger : (engine.failRequest request nonce events).1 =
      (Engine.closeConsumedQuotes (CommitPhase.dischargeCommitted engine.ledger request).2
        request).modifyRequest request fun r => r.setState .settlementFailed := rfl
  generalize (CommitPhase.dischargeCommitted engine.ledger request).2 = l₁ at hempties hledger
  obtain ⟨quotes, sound, heq, hquotes⟩ := closeConsumedQuotes_quotes l₁ request
  obtain ⟨won, hwon, hunwinds⟩ := hempties.unwinds h hvacates (by rw [hledger, heq]; rfl)
    (by rw [hledger, heq]; rfl) (by rw [hledger, heq]; rfl)
    (fun r => by rw [hledger, heq]; exact request_modifyRequest r)
    (fun quote => by rw [hledger]; exact hquotes quote)
  refine ⟨gone, won, hunwinds, ?_⟩
  rw [hpushed, ← hwon, List.map_map]
  rfl

/-- The winners of a settling request, one on each of its legs. -/
theorem Unwinds.legs {state : RequestState} {won : List (QuoteIdx × Quote)} {y : Request}
    (h : Unwinds l request state gone won l')
    (hp : l.market.Placed) (hf : l.market.Filled) (hc : l.market.Coherent none)
    (hy : l.request request = some y) (hsettling : y.auction.IsSettling) :
    (won.map fun v => v.2.leg).Perm (List.range y.nLegs) := by
  have hlegs : y.auction.legs.length = y.nLegs := by simp [Request.nLegs, Request.auction]
  have hwinner : ∀ v ∈ won, l.market.offers v.1 = some v.2.offer ∧ v.2.request = request ∧
      v.2.state = .consumed := by
    intro v hv
    obtain ⟨hq, hrest⟩ := (h.winners v.1 v.2).mp hv
    exact ⟨market_offers hq, hrest⟩
  refine (List.perm_ext_iff_of_nodup ?_ List.nodup_range).mpr fun i => ?_
  · refine List.Nodup.map_on (fun v hv v' hv' heq => ?_) (h.distinct.of_map _)
    obtain ⟨ho, hr, hs⟩ := hwinner v hv
    obtain ⟨ho', hr', hs'⟩ := hwinner v' hv'
    have hsame := hp.winner v.1 v'.1 _ _ ho ho' hs hs' (hr.trans hr'.symm) heq
    have hrecord : v.2 = v'.2 := Option.some.inj
      (((h.winners _ _).mp hv).1.symm.trans (hsame ▸ ((h.winners _ _).mp hv').1))
    exact Prod.ext hsame hrecord
  · rw [List.mem_map, List.mem_range, ← hlegs]
    constructor
    · rintro ⟨v, hv, rfl⟩
      obtain ⟨ho, hr, -⟩ := hwinner v hv
      obtain ⟨leg, hleg, -⟩ := hc.offer v.1 _ ho
      rw [Market.legOf, show v.2.offer.request = request from hr, market_auctions hy,
        Option.bind_some] at hleg
      exact (List.getElem?_eq_some_iff.mp hleg).1
    · intro hi
      obtain ⟨q, o, ho, hr, hleg, hs⟩ := hf request _ (market_auctions hy) hsettling i hi
      obtain ⟨x, hx, rfl⟩ := quote_of_market ho
      exact ⟨(q, x), (h.winners q x).mpr ⟨hx, hr, hs⟩, hleg⟩

end Ledger

namespace Engine

open Ledger (Unwinds answered)

variable {e : Engine} {now last : Nat} {events : EventBuffer} {config : Config} {nonce : Nonce}
  {status : TxStatus}

/-- A report that goes through, on a normalised engine. -/
theorem Sane.pollSettlement_unwinds (h : e.Sane) (hp : e.market.Placed) (hf : e.market.Filled)
    (hok : (e.pollSettlement nonce status now events).1 = .ok ()) :
    (status.isTerminal = false → (e.pollSettlement nonce status now events).2.1 = e) ∧
    (status.isTerminal = true → ∃ r y d gone won l',
      e.ledger.request r = some y ∧ y.state = .settling nonce d ∧ Nonce.of r = nonce ∧
      (e.pollSettlement nonce status now events).2.1 = { e with ledger := l' } ∧
      Unwinds e.ledger r (answered status) gone won l' ∧
      (won.map fun v => v.2.leg).Perm (List.range y.nLegs) ∧
      (e.pollSettlement nonce status now events).2.2.events = events.events ++
        (if status = .reverted
          then (won.map fun v => Event.quoteRejected v.1 v.2.maker .settlementFailed) ++
            [.requestSettlementFailed r nonce]
          else [.requestEscrowed r nonce])) := by
  unfold pollSettlement at hok ⊢
  split at hok
  · cases hok
  next r hresolve =>
  split at hok
  · cases hok
  next y hy =>
  split at hok
  next nonce' d hstate =>
    split at hok
    · cases hok
    next heq =>
    obtain rfl : nonce' = nonce := by simpa using heq
    have ha := Ledger.market_auctions hy
    have hsettling : y.auction.IsSettling := ⟨nonce', d, hstate⟩
    have hnonce := Ledger.resolveNonce_eq hresolve
    simp only [ne_eq, not_true_eq_false, if_false]
    cases status with
    | unknown | pending =>
        refine ⟨fun _ => ?_, by intro hterminal; cases hterminal⟩
        dsimp only
        split
        · rfl
        split
        · rfl
        · rfl
    | settled =>
        dsimp only at hok ⊢
        split at hok
        · cases hok
        next hroom =>
        have hroom' : events.events.length + 1 ≤ events.capacity := by
          simpa [EventBuffer.headroom] using hroom
        obtain ⟨gone, won, hunwinds, htold⟩ :=
          h.healthy.settleRequest_unwinds nonce' events hp ha hsettling
        refine ⟨(by intro hterminal; cases hterminal), fun _ => ⟨r, y, d, gone, won, _, hy, hstate,
          hnonce, ?_, hunwinds, hunwinds.legs hp hf h.healthy.coherent hy hsettling, ?_⟩⟩
        · rw [if_neg hroom]
          rfl
        · rw [if_neg hroom, if_neg (by simp)]
          show (e.settleRequest r nonce' events).2.events = _
          rw [htold, EventBuffer.push_of_room (by omega)]
    | reverted =>
        dsimp only at hok ⊢
        split at hok
        · cases hok
        next hroom =>
        have hroom' : events.events.length + (y.nLegs + 1) ≤ events.capacity := by
          simpa [EventBuffer.headroom] using hroom
        obtain ⟨gone, won, hunwinds, htold⟩ :=
          h.healthy.failRequest_unwinds nonce' events hp ha hsettling
        have hlegs := hunwinds.legs hp hf h.healthy.coherent hy hsettling
        have hcount : won.length = y.nLegs := by simpa using hlegs.length_eq
        refine ⟨(by intro hterminal; cases hterminal), fun _ => ⟨r, y, d, gone, won, _, hy, hstate,
          hnonce, ?_, hunwinds, hlegs, ?_⟩⟩
        · rw [if_neg hroom]
          rfl
        · rw [if_neg hroom, if_pos rfl]
          show (e.failRequest r nonce' events).2.events = _
          rw [htold]
          refine ((EventBuffer.tells_foldl _).trans EventBuffer.tells_push).events ?_
          rw [List.length_append, List.length_map, List.length_singleton]
          omega
  next => cases hok

/-- A report moves exactly the capital of the request it names.  An answer, `Settled` or
    `Reverted`, takes the claims of its committed list and its winning quotes, one on each leg
    and each maker told of a revert; no answer changes nothing but what has expired. -/
theorem pollSettlement_exact (h : ReachableAt config last e) (input : Input)
    (hcommand : input.command = .pollSettlement nonce status) (hok : (e.answer input).1 = .ok ()) :
    (status.isTerminal = false → e.step input = e.normalisedFor input) ∧
    (status.isTerminal = true → ∃ r y d gone won l',
      (e.normalisedFor input).ledger.request r = some y ∧ y.state = .settling nonce d ∧
      Nonce.of r = nonce ∧ e.step input = { e.normalisedFor input with ledger := l' } ∧
      Unwinds (e.normalisedFor input).ledger r (answered status) gone won l' ∧
      (won.map fun v => v.2.leg).Perm (List.range y.nLegs) ∧
      e.emits input =
        if status = .reverted
          then (won.map fun v => Event.quoteRejected v.1 v.2.maker .settlementFailed) ++
            [.requestSettlementFailed r nonce]
          else [.requestEscrowed r nonce]) := by
  have hn := h.sane.normalised input.command input.now
  have hanswer : e.answer input = (e.normalisedFor input).pollSettlement nonce status input.now
      (.withCapacity input.capacity) := by
    rw [Engine.answer, Engine.apply, normalisedFor, hcommand]
    rfl
  rw [hanswer] at hok
  rw [Engine.step, Engine.emits, hanswer]
  exact hn.sane.pollSettlement_unwinds (hn.placed h.placed) (hn.filled h.reachable.filled) hok

/-- The basket of two legs accepted and its settlement reverted: maker 1 is told once for
    each leg. -/
theorem pollSettlement_exact_crowded : ∃ won : List (QuoteIdx × Quote),
    ((crowded.step crowdedAccept).emits ⟨.pollSettlement ⟨0, 0⟩ .reverted, 6, 9⟩) =
        won.map (fun v => Event.quoteRejected v.1 v.2.maker .settlementFailed) ++
          [.requestSettlementFailed ⟨0, 0⟩ ⟨0, 0⟩] ∧
      (won.map fun v => v.2.leg).Perm [0, 1] := by
  obtain ⟨r, y, d, gone, won, l', hy, -, hnonce, -, -, hlegs, htold⟩ :=
    (pollSettlement_exact (reachableAt_crowded.step crowdedAccept (by decide))
      ⟨.pollSettlement ⟨0, 0⟩ .reverted, 6, 9⟩ rfl (by decide +kernel)).2 rfl
  obtain rfl : r = ⟨0, 0⟩ := Nonce.of_injective hnonce
  have hcount : (((crowded.step crowdedAccept).normalisedFor
      ⟨.pollSettlement ⟨0, 0⟩ .reverted, 6, 9⟩).ledger.request ⟨0, 0⟩).map Request.nLegs =
        some 2 := by
    decide +kernel
  rw [hy] at hcount
  rw [Option.some.inj hcount] at hlegs
  exact ⟨won, htold, hlegs⟩

end Engine

end RfqSettlement
