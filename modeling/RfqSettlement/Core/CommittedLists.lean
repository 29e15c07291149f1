/-
  RfqSettlement.Core.CommittedLists

  The committed lists, claim by claim and in their order.

  `Ledger.Spared` says that every committed list is as it was; whatever opens, releases
  or reclaims a claim spares them.  `Ledger.Lists` says that claims were put in front of
  one of them, as a commit does.
-/

import RfqSettlement.Core.Discharging

namespace RfqSettlement

namespace Ledger

variable {l l' l'' : Ledger} {claim : ResIdx} {v : Reservation} {r : ReqIdx} {i e max now : Nat}
  {filled : Option ReqIdx} {owner : ResOwner} {q : QuoteIdx} {ks : List Claim}

/-- `C r` is the committed list of each request `r`, by index. -/
def Listed (l : Ledger) (C : ReqIdx → List Nat) : Prop := ∃ E, l.links.Threads none E C

/-- `l'` has the committed lists of `l`, and the claims on them. -/
structure Spared (l l' : Ledger) : Prop where
  listed : ∀ C, l.Listed C → l'.Listed C
  claims : ∀ i k r, l.links.claim i = some k → k.status = .committed r → l'.links.claim i = some k

theorem Spared.of_links (h : l'.links = l.links) : Spared l l' where
  listed _ := fun ⟨E, ht⟩ => ⟨E, h ▸ ht⟩
  claims _ _ _ hk _ := h ▸ hk

theorem Spared.refl (l : Ledger) : Spared l l := .of_links rfl

theorem Spared.trans (h : Spared l l') (h' : Spared l' l'') : Spared l l'' where
  listed C hC := h'.listed C (h.listed C hC)
  claims i k r hk hs := h'.claims i k r (h.claims i k r hk hs) hs

-- ============================================================================
-- Claims that are not committed
-- ============================================================================

theorem links_claim (hr : l.reservation claim = some v) : l.links.claim claim.index = some v.toClaim := by
  simp [links, reservationAt, Slab.valueAt_of_get hr]

theorem Intact.spared_reclaim (h : l.Intact) (hr : l.reservation claim = some v)
    (hs : v.toClaim.status = .reserved e) : Spared l (l.reclaim v.account claim v) := by
  obtain ⟨m, hm⟩ := h.account_of_claim hr
  have ha : (l.account v.account).isSome := by simp [hm]
  have hk := links_claim hr
  refine ⟨?_, ?_⟩
  · rintro C ⟨E, ht⟩
    have hi : claim.index ∈ E v.account := (ht.expiry_mem _ _).mpr ⟨by simp, _, e, hk, rfl, hs⟩
    obtain ⟨xs, ys, hE⟩ := List.append_of_mem hi
    have hthreads := (ht.unlink xs (by rwa [isSome_ends]) hE).dropSlot
    rw [← links_reclaim hr ha] at hthreads
    exact ⟨_, hthreads⟩
  · intro i k r hi hcommitted
    rw [links_reclaim hr ha]
    simp only [LinkView.dropSlot, Function.update_apply, LinkView.claim_withChain]
    rw [if_neg]
    · exact hi
    rintro rfl
    rw [hk, Option.some.injEq] at hi
    rw [← hi, hs] at hcommitted
    cases hcommitted

theorem Intact.spared_releaseIfHeld {claim : Option ResIdx} (h : l.Intact)
    (howner : l.ownerClaim owner = some claim)
    (hreserved : ∀ c k, claim = some c → l.market.claims c = some k → ∃ e, k.status = .reserved e) :
    Spared l (l.releaseIfHeld claim) := by
  cases claim with
  | none => exact .refl l
  | some c =>
      obtain ⟨v, e, hv, -, hs, -⟩ := h.backing_some howner fun k => hreserved c k rfl
      have heq : l.releaseIfHeld (some c) = l.reclaim v.account c v := by
        have hfree : v.isCommitted = false := Reservation.isCommitted_eq_false.mpr ⟨e, hs⟩
        simp [Ledger.releaseIfHeld, CommitPhase.release, hv, hfree]
      rw [heq]
      exact h.spared_reclaim hv hs

/-- Reclaiming what has expired. -/
theorem Intact.spared_releaseExpiredFrom {E : Nat → List Nat} {C : ReqIdx → List Nat} {account : Nat}
    (fuel count : Nat) (h : l.Intact) (ht : l.links.Threads none E C) (ha : (l.account account).isSome) :
    Spared l (l.releaseExpiredFrom account now fuel (E account).head? count).2 := by
  induction fuel generalizing l E count with
  | zero =>
      cases (E account).head? with
      | none => exact .refl l
      | some index => exact .of_links rfl
  | succ fuel ih =>
      cases hE : E account with
      | nil => exact .refl l
      | cons i ys =>
          have hi : i ∈ E account := by simp [hE]
          obtain ⟨v, e, prev, next, hv, rfl, hlinks, -⟩ := reservationAt_of_mem ht hi
          obtain ⟨handle, rfl, hget⟩ := Slab.valueAt_eq_some.mp hv
          have hs : v.toClaim.status = .reserved e := by
            simp [Reservation.toClaim, ClaimLinks.status, hlinks]
          simp only [List.head?_cons, Ledger.releaseExpiredFrom, hv, Slab.handleAt_of_get hget,
            Reservation.isExpiredAt_eq now hs]
          by_cases he : e ≤ now
          · simp only [he, decide_true]
            have hfrees := h.reclaim hget hs
            obtain ⟨E', hthreads, hE', hnext, ha'⟩ := h.head_reclaimed ht hget hs ha hE
            rw [hnext, ← hE']
            exact (h.spared_reclaim hget hs).trans (ih (count + 1) hfrees.intact hthreads ha')
          · simp only [he, decide_false]
            exact .refl l

theorem Intact.spared_releaseExpired (h : l.Intact) (account now : Nat) :
    Spared l (l.releaseExpired account now).2 := by
  cases hm : l.account account with
  | none =>
      rw [releaseExpired_error hm]
      exact .refl l
  | some m =>
      obtain ⟨E, C, ht⟩ := h.wired.threads
      have ha : (l.account account).isSome := by simp [hm]
      have hhead : m.expiryHead = (E account).head? := by
        rw [← (ht.expiry account (by rwa [isSome_ends])).head]
        simp [LinkView.chain, links, hm]
      simp only [Ledger.releaseExpired, hm, hhead]
      exact h.spared_releaseExpiredFrom _ 0 ht ha

-- ============================================================================
-- New claims
-- ============================================================================

/-- A slot filled with a fresh claim is none of a list's. -/
theorem links_insert {reservations : Slab .reservation Reservation} {account amount : Nat}
    (hins : l.reservations.insert (Reservation.reserved account amount owner e) = some (claim, reservations)) :
    l.links.claim claim.index = none ∧ ({ l with reservations }).links =
      l.links.putSlot claim.index ⟨account, amount, owner, .reserved e⟩ := by
  obtain ⟨hempty, hvalue⟩ := Slab.valueAt_insert hins
  refine ⟨by simp [links, reservationAt, hempty], ?_⟩
  ext1
  case node =>
    funext i
    simp only [links, reservationAt, hvalue, LinkView.putSlot, Function.update_apply]
    split <;> rfl
  case claim =>
    funext i
    simp only [links, reservationAt, hvalue, LinkView.putSlot, Function.update_apply]
    split <;> rfl
  all_goals rfl

theorem Intact.spared_linkClaim {reservations : Slab .reservation Reservation} {account amount reserved : Nat}
    (h : l.Intact) (ha : (l.account account).isSome)
    (hins : l.reservations.insert (Reservation.reserved account amount owner e) = some (claim, reservations)) :
    Spared l (({ l with reservations }).linkClaim account claim e owner reserved) := by
  obtain ⟨hempty, hput⟩ := links_insert hins
  have hat : ({ l with reservations }).reservationAt claim.index =
      some (Reservation.reserved account amount owner e) :=
    Slab.valueAt_of_get (by rw [(Slab.get_insert hins).2, if_pos rfl])
  have hlinks : (({ l with reservations }).linkClaim account claim e owner reserved).links =
      (({ l with reservations }).linkIntoExpiryChain account claim.index e).links := by
    unfold Ledger.linkClaim
    rw [links_setOwnerClaim]
    exact links_modifyAccount_of_ends fun _ => rfl
  have hlinked : ∀ E C, l.links.Threads none E C →
      (({ l with reservations }).linkIntoExpiryChain account claim.index e).links.claim =
          ({ l with reservations }).links.claim ∧
        ∃ E', (({ l with reservations }).linkIntoExpiryChain account claim.index e).links.Threads none E' C :=
    fun E C ht => (threads_linkIntoExpiryChain (hput ▸ ht.putSlot hempty) hat rfl ha).2
  refine ⟨?_, ?_⟩
  · rintro C ⟨E, ht⟩
    obtain ⟨-, E', ht'⟩ := hlinked E C ht
    exact ⟨E', hlinks ▸ ht'⟩
  · intro i k r hk hs
    obtain ⟨E, C, ht⟩ := h.wired.threads
    rw [hlinks, (hlinked E C ht).1, hput]
    simp only [LinkView.putSlot, Function.update_apply]
    rw [if_neg]
    · exact hk
    rintro rfl
    rw [hempty] at hk
    cases hk

theorem Intact.spared_openQuoteReserving {amount : Nat} {x : QuoteIdx × ResIdx} (h : l.Intact) (record : Quote)
    (hrecord : record.claim = none)
    (hok : (l.openQuoteReserving record amount).1 = .ok x) :
    Spared l (l.openQuoteReserving record amount).2 := by
  unfold Ledger.openQuoteReserving at hok ⊢
  split at hok
  · cases hok
  next reserved hreserved =>
  obtain ⟨m, hadm, -⟩ := checkReservable_eq_ok.mp hreserved
  split at hok
  · cases hok
  next hquotes =>
  split at hok
  · cases hok
  next hroom =>
  rw [if_neg hquotes, if_neg hroom]
  split at hok
  · cases hok
  next quote quotes hins =>
  dsimp only at hok ⊢
  split at hok
  · cases hok
  next claim reservations hins' =>
  have hstored : Spared l { l with quotes } := .of_links rfl
  have ha : (({ l with quotes } : Ledger).account record.maker).isSome := by
    show (l.account record.maker).isSome
    rw [hadm.account]
    rfl
  exact hstored.trans ((h.insertQuote hrecord hins).1.spared_linkClaim ha hins')

/-- A new request commits nothing yet. -/
theorem Intact.spared_insertRequest {requests : Slab .request Request} {record : Request} (h : l.Intact)
    (hhead : record.committedHead = none) (hins : l.requests.insert record = some (r, requests)) :
    Spared l { l with requests } := by
  have hlinks : ({ l with requests }).links =
      { l.links with listHead := Function.update l.links.listHead r (some none) } := by
    ext1
    case listHead =>
      funext r'
      simp only [links, Ledger.request, (Slab.get_insert hins).2, Function.update_apply]
      split
      · rw [Option.map_some, hhead]
      · rfl
    all_goals rfl
  refine ⟨?_, fun _ _ _ hk _ => by rw [hlinks]; exact hk⟩
  rintro C ⟨E, ht⟩
  have hnil : C r = [] := by
    rw [List.eq_nil_iff_forall_not_mem]
    intro i hi
    obtain ⟨k, hk, hs⟩ := ht.claim_of_mem_list hi
    obtain ⟨v, hv, rfl⟩ := Option.map_eq_some_iff.mp hk
    obtain ⟨claim, -, hget⟩ := Slab.valueAt_eq_some.mp hv
    have hlisted := h.balanced.listed claim _ _ (book_claims hget) hs
    have hfresh : l.request r = none := (Slab.get_insert hins).1
    simp [book, hfresh] at hlisted
  exact ⟨E, hlinks ▸ ht.setListHead (.inr ⟨rfl, hnil⟩)⟩

theorem Intact.spared_openRequestReserving {amount : Nat} {x : ReqIdx × ResIdx} (h : l.Intact) (record : Request)
    (hclaim : record.claim = none) (hhead : record.committedHead = none)
    (hok : (l.openRequestReserving record amount).1 = .ok x) :
    Spared l (l.openRequestReserving record amount).2 := by
  unfold Ledger.openRequestReserving at hok ⊢
  split at hok
  · cases hok
  next reserved hreserved =>
  obtain ⟨m, hadm, -⟩ := checkReservable_eq_ok.mp hreserved
  split at hok
  · cases hok
  next hrequests =>
  split at hok
  · cases hok
  next hroom =>
  rw [if_neg hrequests, if_neg hroom]
  split at hok
  · cases hok
  next request requests hins =>
  dsimp only at hok ⊢
  split at hok
  · cases hok
  next claim reservations hins' =>
  have ha : (({ l with requests } : Ledger).account record.requester).isSome := by
    show (l.account record.requester).isSome
    rw [hadm.account]
    rfl
  exact (h.spared_insertRequest hhead hins).trans
    ((h.insertRequest hclaim hhead hins).1.spared_linkClaim ha hins')

-- ============================================================================
-- Records
-- ============================================================================

theorem links_modifyLeg (f : Leg → Leg) : (l.modifyLeg r i f).links = l.links :=
  links_modifyRequest fun _ => rfl

theorem links_unlinkQuote : (l.unlinkQuote r i q).links = l.links := by
  have hfrom : ∀ fuel cursor, (l.unlinkQuoteFrom r i q fuel cursor).links = l.links := by
    intro fuel
    induction fuel with
    | zero => intro cursor; cases cursor <;> rfl
    | succ fuel ih =>
        intro cursor
        cases cursor with
        | none => rfl
        | some index =>
            unfold Ledger.unlinkQuoteFrom
            split
            · rfl
            split
            · rfl
            split
            · exact links_modifyLeg _
            · exact ih _
  unfold Ledger.unlinkQuote
  split
  · rfl
  split
  · exact links_modifyLeg _
  · exact hfrom _ _

/-- A standing quote taken off its leg. -/
theorem Healthy.spared_retireQuote {x : Quote} (h : l.Healthy max filled) (hq : l.quote q = some x)
    (hactive : x.state = .active) : Spared l (l.retireQuote r i q x.claim) := by
  have howner : l.ownerClaim (.quote q) = some x.claim := by simp [Ledger.ownerClaim, hq]
  have hreleased := h.intact.spared_releaseIfHeld howner
    fun c k hc hk => h.reserved_of_active hq hactive hc hk
  refine hreleased.trans (.of_links ?_)
  exact links_unlinkQuote

variable {w : Work} {a : Auction}

theorem Healthy.spared_releaseQuotes (scope : Scope) {qs : List QuoteIdx} {reason : QuoteRejectReason}
    (h : w.1.Healthy max filled) (ha : w.1.market.auctions r = some a) (hopened : a.state = .opened)
    (hi : i < a.legs.length) (hnodup : qs.Nodup)
    (hqs : ∀ q ∈ qs, ∃ o, OnLeg w.1.market r i q o ∧ scope.Withdraws q o) :
    Spared w.1 (qs.foldl (fun w q => w.releaseQuote r i now reason q) w).1 := by
  induction qs generalizing w with
  | nil => exact .refl _
  | cons q qs ih =>
      obtain ⟨hnot, hrest⟩ := List.nodup_cons.mp hnodup
      obtain ⟨o, ho, hscope⟩ := hqs q (by simp)
      obtain ⟨x, hx, rfl⟩ := quote_of_market ho.offer
      have hone : Clears max filled scope now [q] w ([q].foldl (fun w q => w.releaseQuote r i now reason q) w) :=
        h.releaseQuotes ha hopened hi (by simp) fun q' hq' => by
          obtain rfl := List.mem_singleton.mp hq'
          exact ⟨x.offer, ho, hscope⟩
      rw [List.foldl_cons, List.foldl_nil] at hone
      have hspared : Spared w.1 (w.releaseQuote r i now reason q).1 := by
        unfold Work.releaseQuote
        rw [hx]
        exact h.spared_retireQuote hx ho.active
      rw [List.foldl_cons]
      refine hspared.trans (ih hone.healthy (by rw [hone.auctions]; exact ha) hrest ?_)
      intro q' hq'
      obtain ⟨o', ho', hscope'⟩ := hqs q' (by simp [hq'])
      have hne : q' ≠ q := fun heq => hnot (heq ▸ hq')
      refine ⟨o', ⟨?_, ho'.request, ho'.leg, ho'.active⟩, hscope'⟩
      rw [hone.offers, if_neg (by simpa using hne)]
      exact ho'.offer

theorem Healthy.spared_releaseLeg (now : Nat) (keep : Option Selection) (reason : QuoteRejectReason)
    (h : w.1.Healthy max filled) (hmax : max ≤ MAX_QUOTES_PER_LEG) (ha : w.1.market.auctions r = some a)
    (hopened : a.state = .opened) (hi : i < a.legs.length)
    (hactive : ∀ q o, w.1.market.offers q = some o → o.request = r → o.leg = i → o.state = .active) :
    Spared w.1 (w.releaseLeg r i keep now reason).1 := by
  obtain ⟨qs, heq, hnodup, -, hmem⟩ := h.releaseLeg_eq now keep reason hmax ha hopened hi hactive
  rw [heq]
  refine h.spared_releaseQuotes (.rejecting r) ha hopened hi hnodup fun q hq => ?_
  obtain ⟨⟨o, ho⟩, -⟩ := (hmem q).mp hq
  exact ⟨o, ho, ho.request⟩

theorem Healthy.spared_rejectLegs {n : Nat} (now : Nat) (h : w.1.Healthy max none) (hmax : max ≤ MAX_QUOTES_PER_LEG)
    (ha : w.1.market.auctions r = some a) (hopened : a.state = .opened) (hn : n ≤ a.legs.length) :
    Spared w.1 (Engine.rejectLegs w r n now).1 := by
  unfold Engine.rejectLegs
  induction n with
  | zero => exact .refl _
  | succ n ih =>
      obtain ⟨qs, hclear⟩ : ∃ qs, Clears max none (.rejecting r) now qs w (Engine.rejectLegs w r n now) :=
        h.rejectLegs hmax ha hopened (by omega)
      unfold Engine.rejectLegs at hclear
      have ih := ih (by omega)
      rw [List.range_succ, List.foldl_append, List.foldl_cons, List.foldl_nil]
      generalize (List.range n).foldl (fun w leg => w.releaseLeg r leg none now .requestRejected) w = w₁
        at hclear ih
      have ha₁ : w₁.1.market.auctions r = some a := by
        rw [hclear.auctions]
        exact ha
      exact ih.trans (hclear.healthy.spared_releaseLeg now none _ hmax ha₁ hopened (by omega)
        fun q o ho hr _ => hclear.healthy.active_of_opened ha₁ hopened ho hr)

end Ledger

-- ============================================================================
-- Handlers
-- ============================================================================

namespace Engine

open Ledger (Spared Listed)

variable {engine : Engine} {events : EventBuffer} {r : ReqIdx} {i now : Nat}

theorem Sane.spared_rejectRequest (h : engine.Sane) :
    Spared engine.ledger (engine.rejectRequest r now events).2.1.ledger := by
  unfold Engine.rejectRequest
  split
  · exact .refl _
  next record hrecord =>
  split
  · exact .refl _
  next hopened =>
  split
  · exact .refl _
  have hopened : record.state = .opened := by simpa using hopened
  have ha := Ledger.market_auctions hrecord
  have hn : record.nLegs ≤ record.auction.legs.length := by simp [Request.nLegs, Request.auction]
  have hmax := h.config.quotesPerLeg
  have hlegs := Ledger.Healthy.spared_rejectLegs (w := (engine.ledger, events)) now h.healthy hmax ha
    hopened hn
  obtain ⟨qs, hclear⟩ := Ledger.Healthy.rejectLegs (w := (engine.ledger, events)) h.healthy hmax ha
    hopened hn
  dsimp only
  generalize Engine.rejectLegs (engine.ledger, events) r record.nLegs now = w₁ at hlegs hclear
  have ha₁ : w₁.1.market.auctions r = some record.auction := by
    rw [hclear.auctions]
    exact ha
  obtain ⟨y₁, hy₁, -⟩ := Ledger.request_of_market ha₁
  have howner : w₁.1.ownerClaim (.request r) = some record.claim := by
    rw [Ledger.ownerClaim_request_eq h.healthy.intact hclear.healthy.intact hrecord
      (Option.isSome_iff_exists.mpr ⟨y₁, hy₁⟩) fun c k hk => hclear.claims c k r hk]
    simp [Ledger.ownerClaim, hrecord]
  have hreleased := hclear.healthy.intact.spared_releaseIfHeld howner fun c k hc hk => by
    obtain ⟨k', hk', hown⟩ := hclear.healthy.intact.balanced.holder (.request r) c (by
      rw [Ledger.ownerClaim_book, howner, hc])
    have hk : w₁.1.book.claims c = some k := hk
    rw [hk, Option.some.injEq] at hk'
    exact hclear.healthy.reserved_of_opened ha₁ hopened hk (hk' ▸ hown)
  refine (hlegs.trans hreleased).trans (.of_links ?_)
  exact Ledger.links_modifyRequest fun _ => rfl

end Engine

end RfqSettlement
