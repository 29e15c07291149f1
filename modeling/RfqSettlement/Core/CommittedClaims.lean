/-
  RfqSettlement.Core.CommittedClaims

  The claims of a committed list, newest first, and the three things that happen to them.

  An accept puts the requester's claim and the winners', leg by leg, in front of its
  request's list; a resolution empties the list; nothing else touches one.  So the claims
  a settlement is discharged from are those its accept committed, in that order.
-/

import RfqSettlement.Core.CommittedLists
import RfqSettlement.Core.AlikeHandlers

namespace RfqSettlement

namespace Ledger

variable {l l' l'' : Ledger} {claim : ResIdx} {v : Reservation} {r : ReqIdx} {i e max now keep : Nat}
  {filled : Option ReqIdx} {q : QuoteIdx} {ks ks' : List Claim}

/-- The claims on a request's committed list, in its order. -/
def committedClaims (l : Ledger) (r : ReqIdx) : List Claim :=
  (l.committedList r).filterMap l.links.claim

/-- What is listed is the committed list, read along its links. -/
theorem Intact.committedList_eq {C : ReqIdx → List Nat} (h : l.Intact) (hC : l.Listed C) (r : ReqIdx) :
    l.committedList r = C r := by
  obtain ⟨E, ht⟩ := hC
  cases hy : l.request r with
  | some y => exact committedList_of_threads ht hy
  | none =>
      have hnil : C r = [] := by
        rw [List.eq_nil_iff_forall_not_mem]
        intro i hi
        obtain ⟨k, hk, hs⟩ := ht.claim_of_mem_list hi
        obtain ⟨v, hv, rfl⟩ := Option.map_eq_some_iff.mp hk
        obtain ⟨claim, -, hget⟩ := Slab.valueAt_eq_some.mp hv
        have hlisted := h.balanced.listed claim _ _ (book_claims hget) hs
        simp [book, hy] at hlisted
      rw [hnil, committedList, hy]
      cases l.reservations.capacity <;> rfl

theorem Intact.listed (h : l.Intact) : ∃ C, l.Listed C := by
  obtain ⟨E, C, ht⟩ := h.wired.threads
  exact ⟨C, E, ht⟩

theorem Listed.mem {C : ReqIdx → List Nat} (hC : l.Listed C) (hi : i ∈ C r) :
    ∃ k, l.links.claim i = some k ∧ k.status = .committed r := by
  obtain ⟨E, ht⟩ := hC
  exact ht.claim_of_mem_list hi

/-- A claim is on the list of the request it is committed to. -/
theorem Intact.mem_committedClaims {k : Claim} (h : l.Intact) :
    k ∈ l.committedClaims r ↔ k.status = .committed r ∧ ∃ c, l.market.claims c = some k := by
  obtain ⟨C, hC⟩ := h.listed
  rw [committedClaims, h.committedList_eq hC, List.mem_filterMap]
  constructor
  · rintro ⟨i, hi, hk⟩
    obtain ⟨k', hk', hs⟩ := hC.mem hi
    obtain rfl := Option.some.inj (hk.symm.trans hk')
    obtain ⟨v, hv, rfl⟩ := Option.map_eq_some_iff.mp hk
    obtain ⟨c, -, hget⟩ := Slab.valueAt_eq_some.mp hv
    exact ⟨hs, c, market_claims hget⟩
  · rintro ⟨hs, c, hk⟩
    obtain ⟨v, hv, rfl⟩ := reservation_of_market hk
    obtain ⟨E, ht⟩ := hC
    exact ⟨c.index, (ht.list_mem _ _).mpr ⟨by simp, _, links_claim hv, hs⟩, links_claim hv⟩

theorem Spared.committedClaims (h : Spared l l') (hl : l.Intact) (hl' : l'.Intact) :
    l'.committedClaims = l.committedClaims := by
  funext r
  obtain ⟨C, hC⟩ := hl.listed
  rw [Ledger.committedClaims, Ledger.committedClaims, hl.committedList_eq hC, hl'.committedList_eq (h.listed C hC)]
  refine List.filterMap_congr fun i hi => ?_
  obtain ⟨k, hk, hs⟩ := hC.mem hi
  rw [hk, h.claims i k r hk hs]

-- ============================================================================
-- Commits
-- ============================================================================

/-- `l'` is `l` with the claims `ks`, newest first, in front of the list of `r`. -/
structure Lists (l l' : Ledger) (r : ReqIdx) (ks : List Claim) : Prop where
  listed : ∀ C, l.Listed C → ∃ is, l'.Listed (Function.update C r (is ++ C r)) ∧
    is.map l'.links.claim = ks.map some
  claims : ∀ i k r', l.links.claim i = some k → k.status = .committed r' → l'.links.claim i = some k

theorem Spared.lists (h : Spared l l') (r : ReqIdx) : Lists l l' r [] where
  listed C hC := ⟨[], by simpa using h.listed C hC, rfl⟩
  claims := h.claims

theorem Lists.trans (h : Lists l l' r ks) (h' : Lists l' l'' r ks') : Lists l l'' r (ks' ++ ks) where
  listed C hC := by
    obtain ⟨is, hlisted, hmap⟩ := h.listed C hC
    obtain ⟨is', hlisted', hmap'⟩ := h'.listed _ hlisted
    refine ⟨is' ++ is, by simpa using hlisted', ?_⟩
    rw [List.map_append, List.map_append, hmap', ← hmap]
    congr 1
    refine List.map_congr_left fun i hi => ?_
    obtain ⟨k, hk, hs⟩ := hlisted.mem (r := r) (i := i) (by simp [hi])
    rw [hk, h'.claims i k r hk hs]
  claims i k r' hk hs := h'.claims i k r' (h.claims i k r' hk hs) hs

theorem Lists.committedClaims (h : Lists l l' r ks) (hl : l.Intact) (hl' : l'.Intact) :
    l'.committedClaims = Function.update l.committedClaims r (ks ++ l.committedClaims r) := by
  funext r'
  obtain ⟨C, hC⟩ := hl.listed
  obtain ⟨is, hlisted, hmap⟩ := h.listed C hC
  have hold : ∀ r', (C r').filterMap l'.links.claim = (C r').filterMap l.links.claim := by
    intro r'
    refine List.filterMap_congr fun i hi => ?_
    obtain ⟨k, hk, hs⟩ := hC.mem hi
    rw [hk, h.claims i k r' hk hs]
  have hnew : is.filterMap l'.links.claim = ks := by
    have hsome := congrArg (List.filterMap id) hmap
    rwa [List.filterMap_map, List.filterMap_map, Function.id_comp, Function.id_comp, List.filterMap_some]
      at hsome
  by_cases hr : r' = r
  · subst hr
    rw [Ledger.committedClaims, hl'.committedList_eq hlisted, Function.update_self, Function.update_self,
      List.filterMap_append, hnew, hold, Ledger.committedClaims, hl.committedList_eq hC]
  · rw [Ledger.committedClaims, hl'.committedList_eq hlisted, Function.update_of_ne hr, Function.update_of_ne hr,
      hold, Ledger.committedClaims, hl.committedList_eq hC]

theorem links_raiseCommitted (account amount : Nat) : (l.raiseCommitted account amount).links = l.links := by
  rw [raiseCommitted, links_debugAssert]
  exact links_modifyAccount_of_ends fun _ => rfl

/-- A claim committed goes to the head of its request's list. -/
theorem Intact.lists_commit (h : l.Intact) (hv : l.reservation claim = some v)
    (hs : v.toClaim.status = .reserved e) (hr : (l.request r).isSome) (hkeep : keep ≤ v.amount) :
    Lists l (CommitPhase.commit l claim r keep) r [v.toClaim.committedAs r keep] := by
  obtain ⟨m, hm⟩ := h.account_of_claim hv
  have ha : (l.account v.account).isSome := by simp [hm]
  have hat : l.reservationAt claim.index = some v := Slab.valueAt_of_get hv
  have hfree : v.isCommitted = false := Reservation.isCommitted_eq_false.mpr ⟨e, hs⟩
  have hk := links_claim hv
  have hunlinked : Relinks l (l.unlinkFromChain v.account claim.index) :=
    relinks_unlinkFromChain (by simp [hat])
  have hlinks : (l.unlinkFromChain v.account claim.index).links = _ := links_unlinkFromChain (by simp [hat]) ha
  simp only [CommitPhase.commit, hv, hfree, Bool.false_eq_true, if_false, hkeep, decide_true,
    debugAssert_of_true, Nat.min_eq_left hkeep]
  generalize l.unlinkFromChain v.account claim.index = l₁ at hunlinked hlinks
  obtain ⟨v₁, hv₁, hclaim₁⟩ : ∃ v₁, l₁.reservation claim = some v₁ ∧ v₁.toClaim = v.toClaim := by
    apply reservation_of_claims
    rw [hunlinked.book, book_claims hv]
  obtain ⟨y, hy⟩ : ∃ y, l₁.request r = some y := by
    have hsome := congrArg Option.isSome (congrFun (congrArg Book.requests hunlinked.book) r)
    exact Option.isSome_iff_exists.mp (by simpa [book, hr] using hsome)
  have hat₁ : l₁.reservationAt claim.index = some v₁ := Slab.valueAt_of_get hv₁
  -- cut down to what is kept, and marked committed
  have hhead : ((l₁.modifyReservationAt claim.index fun v => v.setAmount keep).request r) = some y := hy
  have hpushed : ((l₁.modifyReservationAt claim.index fun v => v.setAmount keep).linkIntoCommittedList r
      claim.index).links = _ := links_linkIntoCommittedList hhead
  obtain ⟨l₂, hl₂⟩ : ∃ l₂, (l₁.modifyReservationAt claim.index fun v => v.setAmount keep).modifyReservationAt
      claim.index (fun v => v.setLinks (.committed r none y.committedHead)) = l₂ := ⟨_, rfl⟩
  have hy₂ : l₂.request r = some y := by rw [← hl₂]; exact hy
  have hnode : l₂.links.node claim.index = some (none, y.committedHead) := by
    rw [← hl₂]
    simp only [links, reservationAt_modifyReservationAt, if_true, hat₁]
    rfl
  have hk₂ : l₂.links.claim = Function.update l.links.claim claim.index (some (v.toClaim.committedAs r keep)) := by
    funext j
    rw [← hl₂, ← hclaim₁, Function.update_apply]
    simp only [links, reservationAt_modifyReservationAt]
    split
    next hj =>
      subst hj
      rw [hat₁]
      rfl
    next => exact congrFun ((congrArg LinkView.claim hlinks).trans LinkView.claim_withChain) j
  have hthreads : ∀ E C, l.links.Threads none E C → ∃ E', l₂.links.Threads (some claim.index) E' C := by
    intro E C ht
    have hi : claim.index ∈ E v.account := (ht.expiry_mem _ _).mpr ⟨by simp, _, e, hk, rfl, hs⟩
    obtain ⟨xs, ys, hE⟩ := List.append_of_mem hi
    have hloose := ht.unlink xs (by rwa [isSome_ends]) hE
    rw [← hlinks] at hloose
    exact ⟨_, hl₂ ▸ threads_rewrite _ (threads_rewrite _ hloose)⟩
  rw [hl₂] at hpushed
  -- to the head of the list
  generalize (l₁.modifyReservationAt claim.index fun v => v.setAmount keep).linkIntoCommittedList r claim.index = l₃
    at hpushed ⊢
  have hlinks₃ : ((l₃.lowerReserved v.account v.amount).raiseCommitted v.account keep).links =
      l₂.links.pushList claim.index r y.committedHead := by
    rw [links_raiseCommitted, links_lowerReserved, hpushed]
  have hself : l₂.links.claim claim.index = some (v.toClaim.committedAs r keep) := by
    rw [hk₂, Function.update_self]
  refine ⟨?_, ?_⟩
  · rintro C ⟨E, ht⟩
    obtain ⟨E', hloose⟩ := hthreads E C ht
    have hlist : l₂.links.listHead r = some y.committedHead := by simp [links, hy₂]
    refine ⟨[claim.index], ⟨E', ?_⟩, ?_⟩
    · rw [hlinks₃]
      exact hloose.pushList hlist hself rfl hnode
    · rw [hlinks₃, List.map_singleton, List.map_singleton]
      exact congrArg (fun x => [x]) hself
  · intro i k r' hi hcommitted
    rw [hlinks₃]
    show l₂.links.claim i = some k
    rw [hk₂, Function.update_of_ne, hi]
    rintro rfl
    rw [hk, Option.some.injEq] at hi
    rw [← hi, hs] at hcommitted
    cases hcommitted

-- ============================================================================
-- Accepts
-- ============================================================================

variable {a : Auction} {f : Fill} {fills : List Fill} {w : Work}

/-- A live winner's claim is committed whole. -/
theorem Healthy.lists_consumeWinner (h : l.Healthy max (some r)) (hb : l.market.Backed now)
    (ha : l.market.auctions r = some a) (hfit : Fits l.market r a i f) (hlive : now < f.offer.expiresAt) :
    Lists l (Engine.consumeWinner l r f.selection) r [f.claim r] := by
  have ho := hfit.onLeg
  obtain ⟨x, hx, hoffer⟩ := quote_of_market ho.offer
  have hactive : x.state = .active := (congrArg Offer.state hoffer).trans ho.active
  have howner : l.ownerClaim (.quote f.quote) = some x.claim := by simp [Ledger.ownerClaim, hx]
  cases hclaim : x.claim with
  | none =>
      obtain ⟨c, k, heq, -⟩ := backing_of_live h.coherent hb ho ha hfit.leg hlive
        (h.intact.backing_none (hclaim ▸ howner))
      cases heq
  | some c =>
      obtain ⟨v, e, hv, -, hs, hbacking⟩ := h.intact.backing_some (hclaim ▸ howner)
        fun k hk => h.reserved_of_active hx hactive hclaim hk
      have hbacking : l.market.Backing (.quote f.quote) (some (c, v.toClaim)) := hbacking
      obtain ⟨c', k, heq, haccount, hamount, hkowner⟩ := backing_of_live h.coherent hb ho ha hfit.leg hlive hbacking
      obtain ⟨rfl, rfl⟩ := Prod.mk.inj (Option.some.inj heq)
      obtain ⟨y, hy, -⟩ := request_of_market ha
      have hintact : (l.modifyQuote f.quote fun x => x.setState .consumed).Intact :=
        h.intact.modifyQuote fun _ => rfl
      have hcommit : Lists _ (CommitPhase.commit _ c r v.amount) r _ := hintact.lists_commit hv hs
        (Option.isSome_iff_exists.mpr ⟨y, hy⟩) (Nat.le_refl _)
      have hk : v.toClaim.committedAs r v.amount = f.claim r := by
        rw [show v.amount = v.toClaim.amount from rfl, hamount]
        simp only [Claim.committedAs, Fill.claim, haccount, hkowner]
      have hmarked : Spared l (l.modifyQuote f.quote fun x => x.setState .consumed) := .of_links rfl
      unfold Engine.consumeWinner
      simp only [Fill.selection, hx, Option.bind_some, hclaim, hv, Option.map_some, Option.getD_some]
      rw [hk] at hcommit
      exact (hmarked.lists r).trans hcommit

theorem Healthy.lists_acceptLeg (h : w.1.Healthy max (some r)) (hmax : max ≤ MAX_QUOTES_PER_LEG)
    (hb : w.1.market.Backed now) (ha : w.1.market.auctions r = some a) (hopened : a.state = .opened)
    (hfit : Fits w.1.market r a i f) (hlive : now < f.offer.expiresAt)
    (hactive : ∀ q o, w.1.market.offers q = some o → o.request = r → i ≤ o.leg → o.state = .active) :
    Lists w.1 (Engine.acceptLeg w r i f.selection now).1 r [f.claim r] := by
  have hi : i < a.legs.length := (List.getElem?_eq_some_iff.mp hfit.leg).1
  have hon : ∀ q o, w.1.market.offers q = some o → o.request = r → o.leg = i → o.state = .active :=
    fun q o ho hr hoi => hactive q o ho hr (Nat.le_of_eq hoi.symm)
  have hspared := h.spared_releaseLeg now (some f.selection) .outbid hmax ha hopened hi hon
  obtain ⟨qs, hclear, -, hmem⟩ := h.releaseLeg (.filling r) hmax ha hopened hi fun q o ho hr hoi => ⟨hon q o ho hr hoi, hr⟩
  unfold Engine.acceptLeg
  dsimp only
  generalize w.releaseLeg r i (some f.selection) now .outbid = w₁ at hclear hspared
  have hnot : f.quote ∉ qs := fun hq => ((hmem _).mp hq).2 f.selection rfl rfl
  have hfit₁ : Fits w₁.1.market r a i f := by
    refine ⟨⟨?_, hfit.onLeg.request, hfit.onLeg.leg, hfit.onLeg.active⟩, hfit.leg⟩
    rw [hclear.offers, if_neg hnot]
    exact hfit.onLeg.offer
  have ha₁ : w₁.1.market.auctions r = some a := by
    rw [hclear.auctions]
    exact ha
  exact (hspared.lists r).trans
    (hclear.healthy.lists_consumeWinner (hb.steps_of h.coherent hclear.steps rfl) ha₁ hfit₁ hlive)

/-- The winners' claims, the last leg's first. -/
theorem Healthy.lists_acceptLegs (now : Nat) (h : w.1.Healthy max (some r)) (hmax : max ≤ MAX_QUOTES_PER_LEG)
    (hb : w.1.market.Backed now) (ha : w.1.market.auctions r = some a) (hopened : a.state = .opened)
    (hfits : ∀ j f, fills[j]? = some f → Fits w.1.market r a (i + j) f)
    (hlive : ∀ f ∈ fills, now < f.offer.expiresAt)
    (hactive : ∀ q o, w.1.market.offers q = some o → o.request = r → i ≤ o.leg → o.state = .active) :
    Lists w.1 (Engine.acceptLegs r now i (fills.map Fill.selection) w).1 r
      (fills.reverse.map (Fill.claim r)) := by
  induction fills generalizing i w with
  | nil => exact (Spared.refl _).lists r
  | cons f fills ih =>
      have hfit : Fits w.1.market r a i f := by simpa using hfits 0 f rfl
      obtain ⟨hleg, hrest⟩ : Filled max r now max [f] w (Engine.acceptLeg w r i f.selection now) ∧ _ :=
        h.acceptLeg hmax ha hopened hfit hactive
      have hfirst := h.lists_acceptLeg hmax hb ha hopened hfit (hlive f (by simp)) hactive
      have hlater := ih hleg.healthy (hb.steps_of h.coherent hleg.steps rfl) (by rw [hleg.auctions]; exact ha)
        (i := i + 1) ?_ (fun f hf => hlive f (by simp [hf])) ?_
      · rw [List.reverse_cons, List.map_append]
        exact hfirst.trans hlater
      · intro j g hg
        have hfit := hfits (j + 1) g (by simpa using hg)
        rw [show i + (j + 1) = i + 1 + j by omega] at hfit
        have hlt : i < g.offer.leg := by
          have := hfit.onLeg.leg
          omega
        exact ⟨⟨(hrest _ _ hfit.onLeg.request hlt).mpr hfit.onLeg.offer, hfit.onLeg.request,
          hfit.onLeg.leg, hfit.onLeg.active⟩, hfit.leg⟩
      · intro q o ho hr hlt
        exact hactive q o ((hrest q o hr (by omega)).mp ho) hr (by omega)

-- ============================================================================
-- Discharges
-- ============================================================================

/-- A settling request is discharged from its list, in its order, and the list is empty. -/
theorem Healthy.committedClaims_discharge (h : l.Healthy max none) (ha : l.market.auctions r = some a)
    (hsettling : a.IsSettling) :
    (CommitPhase.dischargeCommitted l r).1 = (l.committedClaims r).map (fun k => (k.owner, k.amount)) ∧
      (CommitPhase.dischargeCommitted l r).2.Intact ∧
      (CommitPhase.dischargeCommitted l r).2.committedClaims = Function.update l.committedClaims r [] := by
  obtain ⟨E, C, ht⟩ := h.intact.wired.threads
  obtain ⟨gone, l', heq, hl', hdischarged, -, -, hlisted, hlinks⟩ :=
    h.intact.dischargeCommitted_links ht (h.own_committed ha hsettling)
  have hC : l.Listed C := ⟨E, ht⟩
  have hC' : l'.Listed (Function.update C r []) := ⟨E, hlinks ▸ ht.dropList⟩
  rw [heq]
  refine ⟨?_, hl', ?_⟩
  · have hgone : ∀ x ∈ gone, l.links.claim x.1.index = some x.2 := by
      intro x hx
      obtain ⟨v, hv, hk⟩ := reservation_of_claims ((hdischarged.exact.2.2 x.1 x.2).mpr (.inl hx))
      rw [links_claim hv, hk]
    have hclaims : l.committedClaims r = gone.map Prod.snd := by
      rw [Ledger.committedClaims, h.intact.committedList_eq hC, ← hlisted, List.filterMap_map,
        ← List.filterMap_eq_map]
      exact List.filterMap_congr fun x hx => hgone x hx
    rw [hclaims, List.map_map]
    rfl
  · funext r'
    rw [Ledger.committedClaims, hl'.committedList_eq hC']
    by_cases hr : r' = r
    · subst hr
      rw [Function.update_self, Function.update_self, List.filterMap_nil]
    · rw [Function.update_of_ne hr, Function.update_of_ne hr, Ledger.committedClaims,
        h.intact.committedList_eq hC]
      refine List.filterMap_congr fun i hi => ?_
      have hoff : i ∉ C r := fun hi' => hr (ht.list_eq_of_mem hi' hi)
      rw [hlinks]
      simp only [LinkView.dropList, LinkView.erase, if_neg hoff]

theorem links_closeQuotes (qs : List QuoteIdx) : (qs.foldl CommitPhase.closeQuote l).links = l.links := by
  induction qs generalizing l with
  | nil => rfl
  | cons q qs ih => exact ih

end Ledger

namespace Engine

open Ledger (Spared Lists Healthy Checked requesterClaim)

variable {e : Engine} {acc : Acceptance} {events : EventBuffer} {r : ReqIdx} {now : Nat} {fills : List Fill}

/-- An accept lists the requester's claim, then the winners' from the last leg down. -/
theorem Sane.lists_commitAccept (h : e.Sane) (hb : e.market.Backed now) (hc : Checked e r now events fills acc) :
    Lists e.ledger (e.commitAccept r acc now events).1 r
      (requesterClaim r acc.record.auction acc.total :: fills.reverse.map (Fill.claim r)) := by
  have ha := Ledger.market_auctions hc.record
  have hopened : acc.record.auction.state = .opened := hc.opened
  have hactive : ∀ q o, e.ledger.market.offers q = some o → o.request = r → 0 ≤ o.leg → o.state = .active :=
    fun q o ho hr _ => h.healthy.active_of_opened ha hopened ho hr
  have hfill : Healthy e.config.maxQuotesPerLeg (some r) e.ledger :=
    ⟨h.healthy.intact, h.healthy.chained, h.healthy.coherent.fill⟩
  have hfits : ∀ (j : Nat) f, fills[j]? = some f → Ledger.Fits e.ledger.market r acc.record.auction (0 + j) f :=
    fun j f hf => by simpa using (hc.wins j f hf).fits
  have hlive : ∀ f ∈ fills, now < f.offer.expiresAt := by
    intro f hf
    obtain ⟨j, hj⟩ := List.mem_iff_getElem?.mp hf
    exact (hc.wins j f hj).live
  have hfilled := Healthy.acceptLegs now (w := (e.ledger, events)) hfill h.config.quotesPerLeg ha hopened hfits
    hactive
  have hlisted := Healthy.lists_acceptLegs now (w := (e.ledger, events)) hfill h.config.quotesPerLeg hb ha
    hopened hfits hlive hactive
  unfold Engine.commitAccept
  dsimp only
  rw [hc.plan]
  generalize Engine.acceptLegs r now 0 (fills.map Fill.selection) (e.ledger, events) = w₁ at hfilled hlisted
  -- the requester's claim is as it was
  have howner : e.ledger.book.ownerClaim (.request r) = some (some acc.claim) := by
    rw [Ledger.ownerClaim_book]
    simp [Ledger.ownerClaim, hc.record, hc.claim]
  obtain ⟨k, hk, hkowner⟩ := h.healthy.intact.balanced.holder _ _ howner
  obtain ⟨expiry, hs⟩ := h.healthy.reserved_of_opened ha hopened hk hkowner
  obtain ⟨a', ha', hbacks⟩ := h.healthy.coherent.auctioned _ k r hk hkowner
  obtain rfl := Option.some.inj (ha.symm.trans ha')
  obtain ⟨v₁, hv₁, hclaim₁⟩ := Ledger.reservation_of_market ((hfilled.claims _ _ _ hkowner).mpr hk)
  obtain ⟨y₁, hy₁, -⟩ := Ledger.request_of_market (l := w₁.1) (r := r) (by rw [hfilled.auctions]; exact ha)
  obtain ⟨v, hv, htotal⟩ := hc.covered
  have hamount : acc.total ≤ v₁.amount := by
    obtain rfl := Option.some.inj ((Ledger.book_claims hv).symm.trans hk)
    rw [show v₁.amount = v₁.toClaim.amount from rfl, hclaim₁]
    exact htotal
  have hcommit := hfilled.healthy.intact.lists_commit (r := r) hv₁ (hclaim₁ ▸ hs)
    (Option.isSome_iff_exists.mpr ⟨y₁, hy₁⟩) hamount
  have hkclaim : v₁.toClaim.committedAs r acc.total = requesterClaim r acc.record.auction acc.total := by
    rw [hclaim₁]
    simp only [Claim.committedAs, requesterClaim, hbacks.account, hkowner]
  rw [hkclaim] at hcommit
  have hset : ∀ (l : Ledger) st, Spared l (l.modifyRequest r fun y => y.setState st) :=
    fun l st => .of_links (Ledger.links_modifyRequest fun _ => rfl)
  exact (hlisted.trans hcommit).trans ((hset _ _).lists r)

/-- A resolution discharges the list of the request it names. -/
theorem Sane.committedClaims_settleRequest (h : e.Sane) {a : Auction} {nonce : Nonce}
    (ha : e.ledger.market.auctions r = some a) (hsettling : a.IsSettling)
    (hi : (e.settleRequest r nonce events).1.Intact) :
    (e.settleRequest r nonce events).1.committedClaims = Function.update e.ledger.committedClaims r [] := by
  obtain ⟨-, hl, hclaims⟩ := h.healthy.committedClaims_discharge ha hsettling
  have hledger : (e.settleRequest r nonce events).1 =
      closeConsumedQuotes ((Ledger.CommitPhase.dischargeCommitted e.ledger r).2.modifyRequest r
        fun y => y.setState .escrowed) r := rfl
  rw [hledger] at hi ⊢
  rw [← hclaims]
  refine Spared.committedClaims (.of_links ?_) hl hi
  exact (Ledger.links_closeQuotes _).trans (Ledger.links_modifyRequest fun _ => rfl)

theorem Sane.committedClaims_failRequest (h : e.Sane) {a : Auction} {nonce : Nonce}
    (ha : e.ledger.market.auctions r = some a) (hsettling : a.IsSettling)
    (hi : (e.failRequest r nonce events).1.Intact) :
    (e.failRequest r nonce events).1.committedClaims = Function.update e.ledger.committedClaims r [] := by
  obtain ⟨-, hl, hclaims⟩ := h.healthy.committedClaims_discharge ha hsettling
  have hledger : (e.failRequest r nonce events).1 =
      (closeConsumedQuotes (Ledger.CommitPhase.dischargeCommitted e.ledger r).2 r).modifyRequest r
        fun y => y.setState .settlementFailed := rfl
  rw [hledger] at hi ⊢
  rw [← hclaims]
  refine Spared.committedClaims (.of_links ?_) hl hi
  rw [Ledger.links_modifyRequest (f := fun y => y.setState .settlementFailed) fun _ => rfl]
  exact Ledger.links_closeQuotes _

/-- A report empties the list of the request it resolves, and touches no other. -/
theorem Sane.committedClaims_pollSettlement (h : e.Sane) (nonce : Nonce) (status : TxStatus) (now : Nat)
    (events : EventBuffer) :
    ((e.pollSettlement nonce status now events).1 = .ok () ∧ status.isTerminal = true →
      (e.pollSettlement nonce status now events).2.1.ledger.committedClaims =
        fun r => if resolveNonce e.ledger nonce = some r then [] else e.ledger.committedClaims r) ∧
    (¬ ((e.pollSettlement nonce status now events).1 = .ok () ∧ status.isTerminal = true) →
      (e.pollSettlement nonce status now events).2.1.ledger.committedClaims = e.ledger.committedClaims) := by
  obtain ⟨_, -, hadv⟩ := h.advances (.pollSettlement nonce status) now events
  have hi : (e.pollSettlement nonce status now events).2.1.ledger.Intact := hadv.sane.healthy.intact
  -- an answer that resolves nothing, and one that does
  have hkept : ∀ x : Answer, x.2.1.ledger = e.ledger → (x.1 = .ok () → status.isTerminal = false) →
      (x.1 = .ok () ∧ status.isTerminal = true → x.2.1.ledger.committedClaims =
        fun r => if resolveNonce e.ledger nonce = some r then [] else e.ledger.committedClaims r) ∧
      (¬ (x.1 = .ok () ∧ status.isTerminal = true) → x.2.1.ledger.committedClaims = e.ledger.committedClaims) :=
    fun x hx hquiet => ⟨fun ⟨hok, hterminal⟩ => by simp [hquiet hok] at hterminal, fun _ => by rw [hx]⟩
  have hemptied : ∀ (r : ReqIdx) (w : Work), resolveNonce e.ledger nonce = some r → status.isTerminal = true →
      w.1.committedClaims = Function.update e.ledger.committedClaims r [] →
      ((e.done w).1 = .ok () ∧ status.isTerminal = true → (e.done w).2.1.ledger.committedClaims =
        fun r => if resolveNonce e.ledger nonce = some r then [] else e.ledger.committedClaims r) ∧
      (¬ ((e.done w).1 = .ok () ∧ status.isTerminal = true) →
        (e.done w).2.1.ledger.committedClaims = e.ledger.committedClaims) := by
    intro r w hr hterminal hw
    refine ⟨fun _ => ?_, fun hnot => absurd ⟨rfl, hterminal⟩ hnot⟩
    show w.1.committedClaims = _
    rw [hw]
    funext r'
    rw [hr]
    by_cases hne : r' = r
    · subst hne
      rw [Function.update_self, if_pos rfl]
    · rw [Function.update_of_ne hne, if_neg fun heq => hne (Option.some.inj heq).symm]
  generalize hx : e.pollSettlement nonce status now events = x at hi ⊢
  have hrefused : ∀ err, e.refuse events err = x → _ := fun err heq =>
    hkept x (heq ▸ rfl) fun hok => by cases heq ▸ hok
  unfold pollSettlement at hx
  split at hx
  · exact hrefused _ hx
  next r hresolve =>
  split at hx
  · exact hrefused _ hx
  next y hy =>
  split at hx
  next nonce' d hstate =>
    have ha := Ledger.market_auctions hy
    have hsettling : y.auction.IsSettling := ⟨nonce', d, hstate⟩
    split at hx
    · exact hrefused _ hx
    cases status with
    | unknown | pending =>
        refine hkept x ?_ fun _ => rfl
        dsimp only at hx
        split at hx
        · exact hx ▸ rfl
        split at hx <;> exact hx ▸ rfl
    | settled =>
        dsimp only at hx
        split at hx
        · exact hrefused _ hx
        · subst hx
          exact hemptied r _ hresolve rfl (h.committedClaims_settleRequest ha hsettling hi)
    | reverted =>
        dsimp only at hx
        split at hx
        · exact hrefused _ hx
        · subst hx
          exact hemptied r _ hresolve rfl (h.committedClaims_failRequest ha hsettling hi)
  · exact hrefused _ hx

-- ============================================================================
-- Everything else
-- ============================================================================

theorem Sane.spared_withdrawStanding (h : e.Sane) {maker i price size expiresAt contribution : Nat}
    {standing : Option QuoteIdx} {y : Request} {leg : Leg}
    (hc : Ledger.QuoteChecked e maker r i price size expiresAt now events standing contribution y leg) :
    Spared e.ledger (withdrawStanding (e.ledger, events) maker r i standing).1 := by
  have hw := h.healthy.withdrawStanding rfl hc
  cases hstanding : standing with
  | none => exact .refl _
  | some q =>
      obtain ⟨x, hx, -, ho⟩ := h.healthy.standing (q := q) hc.request hc.opened hc.found
        (by rw [← hc.located, hstanding])
      unfold withdrawStanding
      dsimp only
      rw [hx, Option.bind_some]
      exact h.healthy.spared_retireQuote hx ho.active

theorem Sane.spared_submitQuote (h : e.Sane) {maker i price size expiresAt : Nat} :
    Spared e.ledger (e.submitQuote maker r i price size expiresAt now events).2.1.ledger := by
  rcases h.submitQuote_cases (r := r) (i := i) with ⟨err, heq⟩ |
    ⟨standing, contribution, y, leg, w₁, hc, rfl, hout⟩
  · rw [heq]
    exact .refl _
  have hwithdrawn := h.spared_withdrawStanding hc
  have hw := h.healthy.withdrawStanding rfl hc
  rcases hout with ⟨err, heq⟩ | ⟨q, c, l₂, hopen, heq⟩
  · rw [heq]
    exact hwithdrawn
  · have hopened := hw.carried.healthy.intact.spared_openQuoteReserving
      (Quote.new maker r i price size expiresAt e.nextArrival) rfl (x := (q, c)) (by rw [hopen])
    rw [hopen] at hopened
    rw [heq]
    refine (hwithdrawn.trans hopened).trans (.of_links ?_)
    obtain ⟨f, hledger, -, -⟩ := Work.publishSelection_writes (l₂.linkQuote r i q)
      (withdrawStanding (e.ledger, events) maker r i standing).2 r i now
    show (Work.publishSelection (l₂.linkQuote r i q, _) r i now).1.links = l₂.links
    rw [hledger]
    exact (Ledger.links_modifyLeg f).trans (Ledger.links_modifyLeg _)

/-- No other command touches a committed list. -/
theorem Sane.spared_perform (h : e.Sane) (command : Command) (now : Nat) (events : EventBuffer)
    (haccept : ∀ r expected, command ≠ .acceptRequest r expected)
    (hpoll : ∀ nonce status, command ≠ .pollSettlement nonce status) :
    Spared e.ledger (e.perform command now events).2.1.ledger := by
  cases command with
  | creditAccount account free =>
      simp only [Engine.perform, Ledger.applyMirrorUpdate]
      cases e.ledger.account account with
      | none => exact .refl _
      | some m =>
          refine .of_links ?_
          exact Ledger.links_modifyAccount_of_ends fun _ => rfl
  | registerContract contract eventDate =>
      simp only [Engine.perform, Ledger.registerContract]
      cases e.ledger.contracts[contract]? with
      | none => exact .refl _
      | some entry =>
          cases entry with
          | none => exact .of_links rfl
          | some existing =>
              by_cases hsame : existing.eventDate = eventDate
              · simp only [hsame, if_true]
                exact .refl _
              · simp only [hsame, if_false]
                exact .refl _
  | submitRequest requester deadline legs =>
      rw [Engine.perform]
      rcases h.submitRequest_cases with ⟨err, heq⟩ | ⟨total, r, c, l₂, hopen, heq⟩
      · rw [heq]
        exact .refl _
      · have hopened := h.healthy.intact.spared_openRequestReserving (Request.new requester deadline
          (legs.map fun s => Leg.new s.contract s.side s.size s.limit)) rfl rfl (x := (r, c)) (by rw [hopen])
        rw [hopen] at hopened
        rw [heq]
        exact hopened
  | rejectRequest r => exact h.spared_rejectRequest
  | submitQuote maker r leg price size expiresAt => exact h.spared_submitQuote
  | cancelQuote q =>
      rw [Engine.perform]
      split <;> exact .refl _
  | acceptRequest r expected => exact absurd rfl (haccept r expected)
  | pollSettlement nonce status => exact absurd rfl (hpoll nonce status)
  | reportOracleStatus contract status =>
      rw [Engine.perform]
      rcases e.reportOracleStatus_cases contract status events with ⟨err, heq⟩ | ⟨record, -, -, heq⟩
      · rw [heq]
        exact .refl _
      · rw [heq]
        exact .of_links rfl
  | settleEscrow escrow contract =>
      rw [Engine.perform]
      unfold Engine.settleEscrow
      split
      · exact .refl _
      split
      · exact .refl _
      split
      · exact .refl _
      · exact .refl _

end Engine

end RfqSettlement
