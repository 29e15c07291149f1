/-
  RfqSettlement.Core.ClaimWalks

  The two walks that free claims: `release_expired` along one account's expiry
  chain, and `discharge_committed` along one request's committed list.

  Each is described by a relation between books, one claim at a time, so that
  whatever a single freed claim preserves is preserved by the walk: `Expired`
  for the first, `Discharged` for the second.
-/

import RfqSettlement.Core.ClaimOps

namespace RfqSettlement

namespace Book

/-- Claims of `account` that are dead at `now` go, one at a time. -/
inductive Expired (account now : Nat) : Book → Book → Prop where
  | refl (b : Book) : Expired account now b b
  | step {b b' : Book} {claim : ResIdx} {k : Claim} {e : Nat} (hk : b.claims claim = some k)
      (ha : k.account = account) (hs : k.status = .reserved e) (he : e ≤ now)
      (rest : Expired account now (b.free claim k) b') : Expired account now b b'

/-- The claims `gone` of `request`'s committed list go, one at a time. -/
inductive Discharged (request : ReqIdx) : Book → List (ResIdx × Claim) → Book → Prop where
  | nil (b : Book) : Discharged request b [] b
  | cons {b b' : Book} {claim : ResIdx} {k : Claim} {gone : List (ResIdx × Claim)}
      (hk : b.claims claim = some k) (hs : k.status = .committed request)
      (hcounted : ∀ t, b.totals k.account = some t → k.amount ≤ t.committed)
      (hsummed : ∀ f, f k ≤ b.sum f) (rest : Discharged request (b.discharge claim k) gone b') :
      Discharged request b ((claim, k) :: gone) b'

theorem Discharged.sum {request : ReqIdx} {b b' : Book} {gone : List (ResIdx × Claim)}
    (h : Discharged request b gone b') (f : Claim → Nat) :
    b.sum f = b'.sum f + (gone.map fun x => f x.2).sum := by
  induction h with
  | nil => simp
  | @cons b b' claim k gone hk hs hcounted hsummed rest ih =>
      have hstep : (b.discharge claim k).sum f = b.sum f - f k := by
        simp [Book.discharge, Book.dropClaim, Book.modifyTotals]
      have := hsummed f
      simp only [List.map_cons, List.sum_cons]
      omega

/-- What goes is, once each, the claims committed to `request`, but for those left. -/
theorem Discharged.exact {request : ReqIdx} {b b' : Book} {gone : List (ResIdx × Claim)}
    (h : Discharged request b gone b') : (gone.map Prod.fst).Nodup ∧
      (∀ v ∈ gone, v.2.status = .committed request) ∧
      ∀ c k, b.claims c = some k ↔ (c, k) ∈ gone ∨ b'.claims c = some k := by
  induction h with
  | nil => simp
  | @cons b b' claim k gone hk hs _ _ rest ih =>
      obtain ⟨hnodup, hcommitted, hexact⟩ := ih
      have hclaims : ∀ c, (b.discharge claim k).claims c = if c = claim then none else b.claims c := by
        intro c
        simp only [discharge, dropClaim, Function.update_apply]
        split
        · rfl
        · cases k.owner <;> rfl
      refine ⟨?_, ?_, fun c k' => ?_⟩
      · rw [List.map_cons, List.nodup_cons]
        refine ⟨fun hmem => ?_, hnodup⟩
        obtain ⟨⟨c, k'⟩, hv, rfl⟩ := List.mem_map.mp hmem
        have hstored := (hexact c k').mpr (.inl hv)
        rw [hclaims, if_pos rfl] at hstored
        cases hstored
      · intro v hv
        rcases List.mem_cons.mp hv with rfl | hv
        · exact hs
        · exact hcommitted v hv
      · by_cases hc : c = claim
        · subst hc
          have hnone : ¬ ((c, k') ∈ gone ∨ b'.claims c = some k') := by
            rw [← hexact, hclaims, if_pos rfl]
            simp
          rw [hk, List.mem_cons, or_assoc, or_iff_left hnone]
          simp [eq_comm]
        · have hrest := hexact c k'
          rw [hclaims, if_neg hc] at hrest
          rw [hrest, List.mem_cons]
          simp [hc]

/-- What a discharge takes off an account's committed total is what its claims on
    the list added to it. -/
theorem Discharged.totals {request : ReqIdx} {b b' : Book} {gone : List (ResIdx × Claim)}
    {account : Nat} {t : Totals} (h : Discharged request b gone b')
    (ht : b.totals account = some t) :
    ∃ t', b'.totals account = some t' ∧ t'.free = t.free ∧ t'.reserved = t.reserved ∧
      t.committed = t'.committed + (gone.map fun x => x.2.committedOn request account).sum := by
  induction h generalizing t with
  | nil => exact ⟨t, ht, rfl, rfl, by simp⟩
  | @cons b b' claim k gone hk hs hcounted hsummed rest ih =>
      have htotals : (b.discharge claim k).totals account =
          some (if account = k.account then { t with committed := t.committed - k.amount } else t) := by
        simp only [Book.discharge, Book.dropClaim, Book.totals_setOwnerClaim, Book.modifyTotals,
          Function.update_apply]
        split
        next heq => rw [← heq, ht, Option.map_some]
        next => exact ht
      obtain ⟨t', ht', hfree, hreserved, hcommitted⟩ := ih htotals
      refine ⟨t', ht', ?_, ?_, ?_⟩
      · rw [hfree]
        split <;> rfl
      · rw [hreserved]
        split <;> rfl
      · simp only [List.map_cons, List.sum_cons]
        by_cases heq : account = k.account
        · have hle := hcounted t (heq ▸ ht)
          have hk : k.committedOn request account = k.amount := by
            simp [Claim.committedOn, hs, heq]
          simp only [if_pos heq] at hcommitted
          omega
        · have hk : k.committedOn request account = 0 := by
            simp [Claim.committedOn, Ne.symm heq]
          simp only [if_neg heq] at hcommitted
          omega

end Book

namespace Ledger

variable {l : Ledger} {account now index e : Nat} {claim : ResIdx} {r : Reservation}
  {request : ReqIdx}

-- ============================================================================
-- Expired claims
-- ============================================================================

theorem links_reclaim (hr : l.reservation claim = some r) (ha : (l.account r.account).isSome) :
    (l.reclaim r.account claim r).links =
      (l.links.withChain r.account ((l.links.chain r.account).unlink claim.index)).dropSlot
        claim.index := by
  have hindex : (l.reservationAt claim.index).isSome := by
    rw [show l.reservationAt claim.index = some r from Slab.valueAt_of_get hr]
    rfl
  have hrel : Relinks l (l.unlinkFromChain r.account claim.index) := relinks_unlinkFromChain hindex
  rw [← links_unlinkFromChain hindex ha]
  unfold Ledger.reclaim
  dsimp only
  generalize l.unlinkFromChain r.account claim.index = l₁ at hrel ⊢
  obtain ⟨r₁, hr₁, -⟩ : ∃ r₁, l₁.reservation claim = some r₁ ∧ r₁.toClaim = r.toClaim := by
    apply reservation_of_claims
    rw [hrel.book, book_claims hr]
  unfold Ledger.removeReservation
  have hr₂ : (((l₁.lowerReserved r.account r.amount).setOwnerClaim r.owner none).reservation
      claim).isSome := by
    rw [reservation_eq_of_reservations (reservations_setOwnerClaim _ _)]
    rw [show (l₁.lowerReserved r.account r.amount).reservation claim = some r₁ from hr₁]
    rfl
  rw [links_debugAssert, links_remove hr₂, links_setOwnerClaim]
  rw [links_lowerReserved]

/-- `l'` is `l` with the expired claims of `account` freed. -/
structure Swept (account now : Nat) (l l' : Ledger) : Prop where
  intact : l'.Intact
  book : Book.Expired account now l.book l'.book
  kept : Kept l l'
  live : ∀ claim k e, l'.book.claims claim = some k → k.account = account →
    k.status = .reserved e → now < e

/-- Nothing to sweep while every entry of the chain is live. -/
theorem Intact.swept_self {E : Nat → List Nat} {C : ReqIdx → List Nat} (h : l.Intact)
    (ht : l.links.Threads none E C) (hlive : ∀ i ∈ E account, now < l.links.expiry i) :
    Swept account now l l := by
  refine ⟨h, .refl _, Kept.refl l, ?_⟩
  intro claim k e hk hka hs
  obtain ⟨r, hr, rfl⟩ := reservation_of_claims hk
  have hlink : l.links.claim claim.index = some r.toClaim := by
    simp [links, reservationAt, Slab.valueAt_of_get hr]
  rw [← LinkView.expiry_eq hlink hs]
  exact hlive _ ((ht.expiry_mem _ _).mpr ⟨by simp, _, e, hlink, hka, hs⟩)

/-- Once the head of a chain is reclaimed, the walk stands at the head of what is left. -/
theorem Intact.head_reclaimed {E : Nat → List Nat} {C : ReqIdx → List Nat} {handle : ResIdx} {ys : List Nat}
    (h : l.Intact) (ht : l.links.Threads none E C) (hget : l.reservation handle = some r)
    (hs : r.toClaim.status = .reserved e) (ha : (l.account r.account).isSome)
    (hE : E r.account = handle.index :: ys) :
    ∃ E', (l.reclaim r.account handle r).links.Threads none E' C ∧ E' r.account = ys ∧
      r.neighbours.2 = ys.head? ∧ ((l.reclaim r.account handle r).account r.account).isSome := by
  have hfrees := h.reclaim hget hs
  have hthreads := (ht.unlink [] (by rwa [isSome_ends]) hE).dropSlot
  rw [← links_reclaim hget ha] at hthreads
  refine ⟨_, hthreads, Function.update_self _ _ _, ?_, ?_⟩
  · have hchain := ht.expiry r.account (by rwa [isSome_ends])
    rw [hE] at hchain
    have hnode := hchain.segment.1
    have hr : l.reservationAt handle.index = some r := Slab.valueAt_of_get hget
    simp only [LinkView.chain, links, hr, Option.map_some, Option.some.injEq] at hnode
    rw [hnode, Option.or_none]
  · have htot := congrArg Option.isSome (congrFun (congrArg Book.totals hfrees.book) r.account)
    have hfree : ((l.book.free handle r.toClaim).totals r.account).isSome =
        (l.book.totals r.account).isSome := by
      simp [Book.free, Book.dropClaim, Book.isSome_totals_modifyTotals]
    rw [hfree] at htot
    simpa [book, ha] using htot

/-- The walk from the head of a chain, with enough fuel for what is left of it. -/
theorem Intact.releaseExpiredFrom {E : Nat → List Nat} {C : ReqIdx → List Nat} (fuel : Nat)
    (count : Nat) (h : l.Intact) (ht : l.links.Threads none E C)
    (ha : (l.account account).isSome) (hfuel : (E account).length ≤ fuel) :
    Swept account now l (l.releaseExpiredFrom account now fuel (E account).head? count).2 := by
  induction fuel generalizing l E count with
  | zero =>
      have hnil : E account = [] := List.eq_nil_of_length_eq_zero (by omega)
      rw [hnil]
      exact h.swept_self ht (by simp [hnil])
  | succ fuel ih =>
      cases hE : E account with
      | nil => exact h.swept_self ht (by simp [hE])
      | cons i ys =>
          have hi : i ∈ E account := by simp [hE]
          obtain ⟨r, e, prev, next, hr, rfl, hlinks, hexpiry⟩ := reservationAt_of_mem ht hi
          obtain ⟨handle, rfl, hget⟩ := Slab.valueAt_eq_some.mp hr
          have hhandle : l.reservations.handleAt handle.index = some handle :=
            Slab.handleAt_of_get hget
          have hs : r.toClaim.status = .reserved e := by
            simp [Reservation.toClaim, ClaimLinks.status, hlinks]
          simp only [List.head?_cons, Ledger.releaseExpiredFrom, hr,
            Reservation.isExpiredAt_eq now hs, hhandle]
          by_cases he : e ≤ now
          · simp only [he, decide_true]
            -- the head is dead: it goes, and the walk resumes on what is left
            have hfrees := h.reclaim hget hs
            obtain ⟨E', hthreads, hE', hnext, ha'⟩ := h.head_reclaimed ht hget hs ha hE
            have hlen : (E' r.account).length ≤ fuel := by
              rw [hE']
              simpa [hE] using hfuel
            have hrest := ih (count + 1) hfrees.intact hthreads ha' hlen
            rw [hnext, ← hE']
            refine ⟨hrest.intact, ?_, hfrees.kept.trans hrest.kept, hrest.live⟩
            exact .step (book_claims hget) rfl hs he (hfrees.book ▸ hrest.book)
          · simp only [he, decide_false]
            refine h.swept_self ht ?_
            have hsorted := ht.sorted r.account
            rw [hE, List.pairwise_cons] at hsorted
            intro j hj
            rw [hE] at hj
            rcases List.mem_cons.mp hj with rfl | hj
            · omega
            · have := hsorted.1 j hj
              omega

theorem expiry_length {E : Nat → List Nat} {C : ReqIdx → List Nat}
    (ht : l.links.Threads none E C) (ha : (l.account account).isSome) :
    (E account).length ≤ l.reservations.capacity := by
  refine length_le_capacity (ht.expiry account (by rwa [isSome_ends])).nodup fun i hi => ?_
  obtain ⟨_, _, _, _, hi, -⟩ := reservationAt_of_mem ht hi
  simp [hi]

/-- `release_expired` frees exactly the dead claims of a known account. -/
theorem Intact.releaseExpired (account now : Nat) (h : l.Intact) (ha : (l.account account).isSome) :
    (∃ n, (l.releaseExpired account now).1 = .ok n) ∧
      Swept account now l (l.releaseExpired account now).2 := by
  obtain ⟨m, hm⟩ := Option.isSome_iff_exists.mp ha
  obtain ⟨E, C, ht⟩ := h.wired.threads
  have hhead : m.expiryHead = (E account).head? := by
    rw [← (ht.expiry account (by rwa [isSome_ends])).head]
    simp [LinkView.chain, links, hm]
  have hlen := expiry_length ht ha
  simp only [Ledger.releaseExpired, hm, hhead]
  exact ⟨⟨_, rfl⟩, h.releaseExpiredFrom _ _ ht ha (by omega)⟩

theorem releaseExpired_error (ha : l.account account = none) :
    l.releaseExpired account now = (.error .unknownAccount, l) := by
  simp [Ledger.releaseExpired, ha]

-- ============================================================================
-- Committed lists
-- ============================================================================

/-- The wiring of a ledger in the middle of a discharge: all but the threads. -/
structure Sturdy (l : Ledger) : Prop where
  reservations : l.reservations.Valid
  requests : l.requests.Valid
  quotes : l.quotes.Valid
  balanced : l.book.Balanced

theorem Intact.sturdy (h : l.Intact) : l.Sturdy :=
  ⟨h.wired.reservations, h.wired.requests, h.wired.quotes, h.balanced⟩

theorem Sturdy.dischargeClaim (h : l.Sturdy) (hr : l.reservation claim = some r)
    (hs : r.toClaim.status = .committed request) :
    (CommitPhase.dischargeClaim l claim r).Sturdy ∧
      (CommitPhase.dischargeClaim l claim r).book = l.book.discharge claim r.toClaim ∧
      (CommitPhase.dischargeClaim l claim r).links = l.links.dropSlot claim.index ∧
      Kept l (CommitPhase.dischargeClaim l claim r) := by
  have hle : ∀ m, l.account r.account = some m → r.amount ≤ m.committed :=
    fun m hm => amount_le_committed h.balanced hr hs hm
  have howner : (l.ownerClaim r.owner).isSome := by
    rw [← ownerClaim_book, show l.book.ownerClaim r.owner = _ from h.balanced.held _ _ (book_claims hr)]
    rfl
  unfold CommitPhase.dischargeClaim
  dsimp only
  have hkept₁ := kept_lowerCommitted hle
  have hbook₁ := book_lowerCommitted (l := l) r.account r.amount
  have hlinks₁ := links_lowerCommitted (l := l) r.account r.amount
  have hres₁ : (l.lowerCommitted r.account r.amount).reservations = l.reservations := rfl
  have hquotes₁ : (l.lowerCommitted r.account r.amount).quotes = l.quotes := rfl
  have hrequests₁ : (l.lowerCommitted r.account r.amount).requests = l.requests := rfl
  have howner₁ : ((l.lowerCommitted r.account r.amount).ownerClaim r.owner).isSome := howner
  generalize l.lowerCommitted r.account r.amount = l₁
    at hkept₁ hbook₁ hlinks₁ hres₁ hquotes₁ hrequests₁ howner₁ ⊢
  have hres₂ := reservations_setOwnerClaim (l := l₁) r.owner none
  have hr₂ : (l₁.setOwnerClaim r.owner none).reservation claim = some r := by
    rw [reservation_eq_of_reservations (hres₂.trans hres₁), hr]
  have hbook : ({ l₁.setOwnerClaim r.owner none with
      reservations := ((l₁.setOwnerClaim r.owner none).reservations.remove claim).2 }).book =
      l.book.discharge claim r.toClaim := by
    rw [book_remove hr₂, book_setOwnerClaim, hbook₁]
    rfl
  refine ⟨⟨?_, ?_, ?_, ?_⟩, hbook, ?_, ?_⟩
  · simp only [hres₂, hres₁]
    exact h.reservations.remove
  · cases hro : r.owner with
    | quote q => exact hrequests₁ ▸ h.requests
    | request q => exact (hrequests₁ ▸ h.requests).modify
  · cases hro : r.owner with
    | quote q => exact (hquotes₁ ▸ h.quotes).modify
    | request q => exact hquotes₁ ▸ h.quotes
  · rw [hbook]
    exact h.balanced.discharge (book_claims hr) hs
  · rw [links_remove (by simp [hr₂]), links_setOwnerClaim, hlinks₁]
  · exact (hkept₁.trans (kept_setOwnerClaim howner₁)).trans
      ⟨rfl, Slab.length_remove, rfl, rfl, rfl, rfl, rfl⟩

/-- The walk along what is left of a committed list. -/
theorem Sturdy.dischargeFrom (fuel : Nat) {is : List Nat} {p : Link}
    (visited : List (ResOwner × Nat)) (h : l.Sturdy)
    (hseg : Intrusive.Segment l.links.node p is none) (hnodup : is.Nodup)
    (hmem : ∀ i ∈ is, ∃ k, l.links.claim i = some k ∧ k.status = .committed request)
    (hfuel : is.length ≤ fuel) :
    ∃ gone l', CommitPhase.dischargeFrom l fuel is.head? visited =
        (visited ++ gone.map fun (_, k) => (k.owner, k.amount), l') ∧
      gone.map (fun (claim, _) => claim.index) = is ∧ l'.Sturdy ∧
      Book.Discharged request l.book gone l'.book ∧ l'.links = l.links.erase is ∧ Kept l l' := by
  induction fuel generalizing l is p visited with
  | zero =>
      obtain rfl : is = [] := List.eq_nil_of_length_eq_zero (by omega)
      exact ⟨[], l, by simp [CommitPhase.dischargeFrom], rfl, h, .nil _,
        LinkView.erase_nil.symm, Kept.refl l⟩
  | succ fuel ih =>
      cases is with
      | nil =>
          exact ⟨[], l, by simp [CommitPhase.dischargeFrom], rfl, h, .nil _,
            LinkView.erase_nil.symm, Kept.refl l⟩
      | cons i is =>
          obtain ⟨k, hk, hs⟩ := hmem i (by simp)
          obtain ⟨r, hr, rfl⟩ := Option.map_eq_some_iff.mp hk
          obtain ⟨claim, rfl, hget⟩ := Slab.valueAt_eq_some.mp hr
          have hhandle : l.reservations.handleAt claim.index = some claim :=
            Slab.handleAt_of_get hget
          obtain ⟨hnot, hnodup⟩ := List.nodup_cons.mp hnodup
          have hnext : r.neighbours.2 = is.head? := by
            have hnode := hseg.1
            simp only [links, hr, Option.map_some, Option.some.injEq] at hnode
            rw [hnode, Option.or_none]
          obtain ⟨h₁, hbook₁, hlinks₁, hkept₁⟩ := h.dischargeClaim hget hs
          simp only [List.head?_cons, CommitPhase.dischargeFrom, hr, hhandle, hnext]
          have hne : ∀ j ∈ is, j ≠ claim.index := fun j hj heq => hnot (heq ▸ hj)
          have hseg₁ : Intrusive.Segment (CommitPhase.dischargeClaim l claim r).links.node
              (some claim.index) is none := by
            refine hseg.2.congr fun j hj => ?_
            rw [hlinks₁]
            simp [LinkView.dropSlot, Function.update_of_ne (hne j hj)]
          have hmem₁ : ∀ j ∈ is, ∃ k, (CommitPhase.dischargeClaim l claim r).links.claim j = some k ∧
              k.status = .committed request := by
            intro j hj
            rw [hlinks₁]
            simp only [LinkView.dropSlot, Function.update_of_ne (hne j hj)]
            exact hmem j (List.mem_cons_of_mem _ hj)
          obtain ⟨gone, l', hrun, hgone, h', hbook', hlinks', hkept'⟩ :=
            ih (visited ++ [(r.owner, r.amount)]) h₁ hseg₁ hnodup hmem₁ (by simpa using hfuel)
          refine ⟨(claim, r.toClaim) :: gone, l', ?_, by simp [hgone], h', ?_, ?_,
            hkept₁.trans hkept'⟩
          · rw [hrun]
            simp [Reservation.toClaim]
          · refine .cons (book_claims hget) hs (fun t ht => ?_)
              (fun f => le_book_sum (book_claims hget) f) (hbook₁ ▸ hbook')
            obtain ⟨m, hm, rfl⟩ := Option.map_eq_some_iff.mp ht
            exact amount_le_committed h.balanced hget hs hm
          · rw [hlinks', hlinks₁, LinkView.erase_cons]

/-- Discharging leaves the owners it does not visit alone. -/
theorem ownerClaim_of_discharged {b b' : Book} {gone : List (ResIdx × Claim)} (owner : ResOwner)
    (h : Book.Discharged request b gone b') :
    b'.ownerClaim owner = if owner ∈ gone.map (fun (_, k) => k.owner)
      then (b.ownerClaim owner).map fun _ => none else b.ownerClaim owner := by
  induction h with
  | nil b => simp
  | @cons b b' claim k gone hk hs _ _ rest ih =>
      have hstep : (b.discharge claim k).ownerClaim owner =
          if owner = k.owner then (b.ownerClaim owner).map fun _ => none
          else b.ownerClaim owner := by
        simp only [Book.discharge, Book.ownerClaim_dropClaim, Book.ownerClaim_setOwnerClaim,
          Book.ownerClaim_modifyTotals]
        split
        next heq => rw [heq]
        next => rfl
      rw [ih, hstep]
      by_cases h₁ : owner = k.owner <;>
        by_cases h₂ : owner ∈ gone.map (fun (_, k) => k.owner) <;>
          simp [h₁, h₂, Function.comp_def]

/-- `discharge_committed`, on a request whose own claim, if it has one, is on its
    list: the claims it discharges are the list's, in the list's order. -/
theorem Intact.dischargeCommitted_links (h : l.Intact) {E : Nat → List Nat} {C : ReqIdx → List Nat}
    (ht : l.links.Threads none E C)
    (hown : ∀ claim, l.book.ownerClaim (.request request) = some (some claim) →
      ∃ k, l.book.claims claim = some k ∧ k.status = .committed request) :
    ∃ gone l', CommitPhase.dischargeCommitted l request =
        (gone.map fun (_, k) => (k.owner, k.amount), l') ∧ l'.Intact ∧
      Book.Discharged request l.book gone l'.book ∧ Kept l l' ∧
      (∀ claim k, l'.book.claims claim = some k → k.status ≠ .committed request) ∧
      gone.map (fun v => v.1.index) = C request ∧
      l'.links = l.links.dropList request (C request) := by
  have hhead : ((l.request request).map fun r => r.committedHead).getD none = (C request).head? ∧
      Intrusive.Segment l.links.node none (C request) none := by
    cases hr : l.request request with
    | some record =>
        obtain ⟨hhead, hseg⟩ := ht.list request record.committedHead (by simp [links, hr])
        exact ⟨hhead, hseg⟩
    | none =>
        have hnil : C request = [] := by
          rw [List.eq_nil_iff_forall_not_mem]
          intro i hi
          obtain ⟨k, hk, hs⟩ := ht.claim_of_mem_list hi
          obtain ⟨r, hr', rfl⟩ := Option.map_eq_some_iff.mp hk
          obtain ⟨claim, -, hget⟩ := Slab.valueAt_eq_some.mp hr'
          have := h.balanced.listed claim _ _ (book_claims hget) hs
          simp [book, hr] at this
        rw [hnil]
        exact ⟨rfl, trivial⟩
  have hlen : (C request).length ≤ l.reservations.capacity := by
    refine length_le_capacity (ht.list_nodup request) fun i hi => ?_
    obtain ⟨k, hk, -⟩ := ht.claim_of_mem_list hi
    obtain ⟨r, hr, -⟩ := Option.map_eq_some_iff.mp hk
    simp [hr]
  obtain ⟨gone, l', hrun, hgone, h', hbook', hlinks', hkept'⟩ :=
    h.sturdy.dischargeFrom (l.reservations.capacity + 1) [] hhead.2 (ht.list_nodup request)
      (fun i hi => ht.claim_of_mem_list hi) (by omega)
  unfold CommitPhase.dischargeCommitted
  dsimp only
  rw [hhead.1, hrun]
  dsimp only
  -- no claim of the list is left
  have hnone : ∀ claim k, l'.book.claims claim = some k → k.status ≠ .committed request := by
    intro claim k hk hs
    obtain ⟨r, hr, rfl⟩ := reservation_of_claims hk
    have hlink : l'.links.claim claim.index = some r.toClaim := by
      simp [links, reservationAt, Slab.valueAt_of_get hr]
    rw [hlinks'] at hlink
    simp only [LinkView.erase, Option.ite_none_left_eq_some] at hlink
    exact hlink.1 ((ht.list_mem _ _).mpr ⟨by simp, _, hlink.2, hs⟩)
  -- so the request's own claim is gone already
  have hreleased : ∀ record, l'.request request = some record → record.claim = none := by
    intro record hrecord
    cases hclaim : record.claim with
    | none => rfl
    | some claim =>
        have howner : l'.book.ownerClaim (.request request) = some (some claim) := by
          rw [ownerClaim_book]
          simp [Ledger.ownerClaim, hrecord, hclaim]
        obtain ⟨k, hk, -⟩ := h'.balanced.holder _ _ howner
        obtain ⟨r, hr, rfl⟩ := reservation_of_claims hk
        have hlink : l'.links.claim claim.index = some r.toClaim := by
          simp [links, reservationAt, Slab.valueAt_of_get hr]
        rw [hlinks'] at hlink
        simp only [LinkView.erase, Option.ite_none_left_eq_some] at hlink
        have howner₀ := ownerClaim_of_discharged (.request request) hbook'
        rw [howner] at howner₀
        split at howner₀
        next =>
          have := howner₀.symm
          simp at this
        next =>
          obtain ⟨k₀, hk₀, hs₀⟩ := hown claim howner₀.symm
          obtain ⟨r₀, hr₀, rfl⟩ := reservation_of_claims hk₀
          exact absurd ((ht.list_mem request claim.index).mpr ⟨by simp, r₀.toClaim,
            by simp [links, reservationAt, Slab.valueAt_of_get hr₀], hs₀⟩) hlink.1
  have hbook : (l'.modifyRequest request fun r => { r with committedHead := none, claim := none }).book =
      l'.book := by
    ext1
    case requests =>
      funext r
      simp only [book, Ledger.modifyRequest, Ledger.request, Slab.get_modify]
      split
      next heq =>
        subst heq
        cases hr : l'.requests.get r with
        | none => rfl
        | some record =>
            have := hreleased record hr
            simp only [Option.map_some, Request.unlinked, this]
      next => rfl
    all_goals rfl
  have hlinks : (l'.modifyRequest request fun r => { r with committedHead := none, claim := none }).links =
      l.links.dropList request (C request) := by
    have hlist : l'.links.listHead = l.links.listHead := by rw [hlinks']; rfl
    ext1
    case listHead =>
      funext r
      have hr := congrFun hlist r
      simp only [links, Ledger.request] at hr
      simp only [links, Ledger.modifyRequest, Ledger.request, Slab.get_modify, LinkView.dropList,
        Function.update_apply]
      split
      next heq =>
        rw [← heq, ← hr, Option.map_map, Option.map_map]
        rfl
      next => exact hr
    case node => exact (congrArg LinkView.node hlinks' :)
    case claim => exact (congrArg LinkView.claim hlinks' :)
    case ends => exact (congrArg LinkView.ends hlinks' :)
  refine ⟨gone, _, rfl, ⟨⟨h'.reservations, h'.requests.modify, h'.quotes,
    ⟨E, Function.update C request [], ?_⟩⟩, ?_⟩, ?_, hkept'.trans kept_modifyRequest, ?_, hgone,
    hlinks⟩
  · rw [hlinks]
    exact ht.dropList
  · rw [hbook]
    exact h'.balanced
  · rw [hbook]
    exact hbook'
  · rw [hbook]
    exact hnone

/-- It discharges the whole list and nothing else. -/
theorem Intact.dischargeCommitted (h : l.Intact)
    (hown : ∀ claim, l.book.ownerClaim (.request request) = some (some claim) →
      ∃ k, l.book.claims claim = some k ∧ k.status = .committed request) :
    ∃ gone l', CommitPhase.dischargeCommitted l request =
        (gone.map fun (_, k) => (k.owner, k.amount), l') ∧ l'.Intact ∧
      Book.Discharged request l.book gone l'.book ∧ Kept l l' ∧
      ∀ claim k, l'.book.claims claim = some k → k.status ≠ .committed request := by
  obtain ⟨E, C, ht⟩ := h.wired.threads
  obtain ⟨gone, l', heq, hi', hd, hkept, hnone, -, -⟩ := h.dischargeCommitted_links ht hown
  exact ⟨gone, l', heq, hi', hd, hkept, hnone⟩

end Ledger

end RfqSettlement
