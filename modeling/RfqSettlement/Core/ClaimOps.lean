/-
  RfqSettlement.Core.ClaimOps

  What each ledger operation does, seen from the book.  One lemma an operation:
  it keeps `Intact`, it is the book operation of the same purpose, and it leaves
  alone what it has no business with.
-/

import RfqSettlement.Core.Intact

namespace RfqSettlement

namespace Ledger

variable {l : Ledger} {account index a e amount : Nat} {loose : Link} {claim : ResIdx}
  {r : Reservation} {owner : ResOwner} {request : ReqIdx} {quote : QuoteIdx}

-- ============================================================================
-- Reading the invariant
-- ============================================================================

theorem book_claims (hr : l.reservation claim = some r) : l.book.claims claim = some r.toClaim := by
  simp [book, hr]

theorem reservation_of_claims {k : Claim} (hk : l.book.claims claim = some k) :
    ∃ r, l.reservation claim = some r ∧ r.toClaim = k :=
  Option.map_eq_some_iff.mp hk

theorem book_totals {m : MirroredBalance} (hm : l.account a = some m) :
    l.book.totals a = some m.totals := by
  simp [book, hm]

theorem book_requests {q : Request} (hq : l.request request = some q) :
    l.book.requests request = some q.unlinked := by
  simp [book, hq]

@[simp] theorem book_quotes : l.book.quotes quote = l.quote quote := rfl

/-- A standing claim is part of every total. -/
theorem le_book_sum {k : Claim} (hk : l.book.claims claim = some k) (f : Claim → Nat) :
    f k ≤ l.book.sum f := by
  obtain ⟨r, hr, rfl⟩ := reservation_of_claims hk
  exact Slab.le_sum (fun r => f r.toClaim) hr

theorem book_sum_eq_zero {f : Claim → Nat}
    (h : ∀ claim k, l.book.claims claim = some k → f k = 0) : l.book.sum f = 0 :=
  Slab.sum_eq_zero fun claim r hr => h claim r.toClaim (book_claims hr)

theorem Intact.amount_le_reserved {m : MirroredBalance} (h : l.Intact)
    (hr : l.reservation claim = some r) (hs : r.toClaim.status = .reserved e)
    (hm : l.account r.account = some m) : r.amount ≤ m.reserved := by
  have hsum := h.balanced.reserved _ _ (book_totals hm)
  have hle := le_book_sum (book_claims hr) (Claim.reservedBy r.account)
  have hpart : Claim.reservedBy r.account r.toClaim = r.amount := by
    unfold Claim.reservedBy
    rw [hs]
    exact if_pos rfl
  rw [hpart] at hle
  exact hle.trans hsum.ge

theorem amount_le_committed {m : MirroredBalance} (hb : l.book.Balanced)
    (hr : l.reservation claim = some r) (hs : r.toClaim.status = .committed request)
    (hm : l.account r.account = some m) : r.amount ≤ m.committed := by
  have hsum := hb.committed _ _ (book_totals hm)
  have hle := le_book_sum (book_claims hr) (Claim.committedBy r.account)
  have hpart : Claim.committedBy r.account r.toClaim = r.amount := by
    unfold Claim.committedBy
    rw [hs]
    exact if_pos rfl
  rw [hpart] at hle
  exact hle.trans hsum.ge

theorem Intact.account_of_claim (h : l.Intact) (hr : l.reservation claim = some r) :
    ∃ m, l.account r.account = some m := by
  have hknown := h.balanced.known _ _ (book_claims hr)
  simp only [book, Option.isSome_map] at hknown
  exact Option.isSome_iff_exists.mp hknown

-- ============================================================================
-- Writes to totals and owners
-- ============================================================================

theorem account_eq_of_book {l' : Ledger} (h : l'.book = l.book) :
    (l'.account a).map MirroredBalance.totals = (l.account a).map MirroredBalance.totals :=
  congrFun (congrArg Book.totals h) a

/-- The wiring does not read totals. -/
theorem Wired.modifyAccount {f : MirroredBalance → MirroredBalance} (account : Nat)
    (h : l.Wired loose)
    (hf : ∀ m, ((f m).expiryHead, (f m).expiryTail) = (m.expiryHead, m.expiryTail)) :
    (l.modifyAccount account f).Wired loose where
  reservations := h.reservations
  requests := h.requests
  quotes := h.quotes
  threads := by
    rw [links_modifyAccount_of_ends hf]
    exact h.threads

theorem Wired.debugAssert {holds : Bool} (h : l.Wired loose) : (l.debugAssert holds).Wired loose :=
  ⟨h.reservations, h.requests, h.quotes, h.threads⟩

theorem Wired.setOwnerClaim (owner : ResOwner) (c : Option ResIdx) (h : l.Wired loose) :
    (l.setOwnerClaim owner c).Wired loose where
  reservations := by
    rw [reservations_setOwnerClaim]
    exact h.reservations
  requests := by
    cases owner with
    | quote q => exact h.requests
    | request r => exact h.requests.modify
  quotes := by
    cases owner with
    | quote q => exact h.quotes.modify
    | request r => exact h.quotes
  threads := by
    rw [links_setOwnerClaim]
    exact h.threads

theorem kept_setOwnerClaim {c : Option ResIdx} (howner : (l.ownerClaim owner).isSome) :
    Kept l (l.setOwnerClaim owner c) := by
  have hsound : (l.setOwnerClaim owner c).sound = l.sound := by
    rw [sound_setOwnerClaim, howner, Bool.and_true]
  cases owner with
  | quote q => exact ⟨rfl, rfl, Slab.length_modify, rfl, rfl, freeHead_modify, hsound⟩
  | request r => exact ⟨rfl, rfl, rfl, Slab.generations_modify, freeHead_modify, rfl, hsound⟩

theorem kept_modifyAccount (account : Nat) {f : MirroredBalance → MirroredBalance} :
    Kept l (l.modifyAccount account f) :=
  ⟨rfl, rfl, rfl, rfl, rfl, rfl, rfl⟩

theorem kept_debugAssert {holds : Bool} (h : holds = true) : Kept l (l.debugAssert holds) := by
  rw [debugAssert_of_true h]
  exact Kept.refl l

/-- An assertion about one account, checked on the stored record. -/
theorem all_account {p : MirroredBalance → Bool} (h : ∀ m, l.account account = some m → p m = true) :
    ((l.account account).all p) = true := by
  cases hm : l.account account with
  | none => rfl
  | some m => exact h m hm

theorem kept_lowerReserved (hle : ∀ m, l.account account = some m → amount ≤ m.reserved) :
    Kept l (l.lowerReserved account amount) :=
  (kept_modifyAccount _).trans (kept_debugAssert (all_account fun m hm => by simpa using hle m hm))

theorem kept_lowerCommitted (hle : ∀ m, l.account account = some m → amount ≤ m.committed) :
    Kept l (l.lowerCommitted account amount) :=
  (kept_modifyAccount _).trans (kept_debugAssert (all_account fun m hm => by simpa using hle m hm))

theorem kept_raiseCommitted
    (hfits : ∀ m, l.account account = some m → m.committed + amount ≤ u64Max) :
    Kept l (l.raiseCommitted account amount) :=
  (kept_modifyAccount _).trans (kept_debugAssert (all_account fun m hm => by simpa using hfits m hm))

theorem book_lowerReserved :
    (l.lowerReserved account amount).book =
      l.book.modifyTotals account fun t => { t with reserved := t.reserved - amount } :=
  book_modifyAccount _ fun _ => rfl

theorem book_lowerCommitted (account amount : Nat) :
    (l.lowerCommitted account amount).book =
      l.book.modifyTotals account fun t => { t with committed := t.committed - amount } :=
  book_modifyAccount _ fun _ => rfl

theorem Wired.lowerReserved (account amount : Nat) (h : l.Wired loose) : (l.lowerReserved account amount).Wired loose := by
  unfold Ledger.lowerReserved
  refine Wired.debugAssert (h.modifyAccount _ ?_)
  exact fun _ => rfl

theorem Wired.lowerCommitted (account amount : Nat) (h : l.Wired loose) : (l.lowerCommitted account amount).Wired loose := by
  unfold Ledger.lowerCommitted
  refine Wired.debugAssert (h.modifyAccount _ ?_)
  exact fun _ => rfl

theorem Wired.raiseCommitted (account amount : Nat) (h : l.Wired loose) : (l.raiseCommitted account amount).Wired loose := by
  unfold Ledger.raiseCommitted
  refine Wired.debugAssert (h.modifyAccount _ ?_)
  exact fun _ => rfl

/-- Raising `committed` is exact while it fits. -/
theorem book_raiseCommitted
    (hfits : ∀ m, l.account account = some m → m.committed + amount ≤ u64Max) :
    (l.raiseCommitted account amount).book =
      l.book.modifyTotals account fun t => { t with committed := t.committed + amount } := by
  ext1
  case totals =>
    funext a
    simp only [Ledger.raiseCommitted, book, Book.modifyTotals, Function.update_apply]
    change Option.map _ ((l.modifyAccount account _).account a) = _
    rw [account_modifyAccount]
    split
    next heq =>
      subst heq
      cases hm : l.account a with
      | none => rfl
      | some m =>
          simp [MirroredBalance.totals, saturatingAdd, Nat.min_eq_left (hfits m hm)]
    next => rfl
  all_goals rfl

/-- Emptying the loose claim's slot. -/
theorem Wired.removeReservation (h : l.Wired (some claim.index)) (hr : l.reservation claim = some r) :
    (l.removeReservation claim).Wired none ∧
      (l.removeReservation claim).book = l.book.dropClaim claim r.toClaim ∧
      Kept l (l.removeReservation claim) ∧
      (l.removeReservation claim).reservations.hasRoom =
        (l.reservations.hasRoom || decide (claim.generation + 1 ≤ u32Max)) := by
  have hsome : (l.reservations.remove claim).1.isSome := by
    rw [Slab.remove_fst, show l.reservations.get claim = some r from hr]
    rfl
  obtain ⟨E, C, ht⟩ := h.threads
  unfold Ledger.removeReservation
  rw [debugAssert_of_true hsome]
  refine ⟨⟨h.reservations.remove, h.requests, h.quotes, ⟨E, C, ?_⟩⟩, book_remove hr,
    ⟨rfl, Slab.length_remove, rfl, rfl, rfl, rfl, rfl⟩, ?_⟩
  · rw [links_remove (by simp [hr])]
    exact ht.dropSlot
  · exact Slab.hasRoom_remove hr

-- ============================================================================
-- Freeing a reserved claim
-- ============================================================================

/-- `l'` is `l` with one reserved claim freed. -/
structure Frees (l : Ledger) (claim : ResIdx) (k : Claim) (l' : Ledger) : Prop where
  intact : l'.Intact
  book : l'.book = l.book.free claim k
  kept : Kept l l'
  room : l'.reservations.hasRoom =
    (l.reservations.hasRoom || decide (claim.generation + 1 ≤ u32Max))

theorem reservation_eq_of_reservations {l' : Ledger} (h : l'.reservations = l.reservations) :
    l'.reservation claim = l.reservation claim := by
  unfold reservation
  rw [h]

theorem Intact.reclaim (h : l.Intact) (hr : l.reservation claim = some r)
    (hs : r.toClaim.status = .reserved e) :
    Frees l claim r.toClaim (l.reclaim r.account claim r) := by
  obtain ⟨m, hm⟩ := h.account_of_claim hr
  have hat : l.reservationAt claim.index = some r := Slab.valueAt_of_get hr
  have hindex : (l.reservationAt claim.index).isSome := by simp [hat]
  have hrel : Relinks l (l.unlinkFromChain r.account claim.index) := relinks_unlinkFromChain hindex
  have hw := h.wired.unlink hat hs (by simp [hm])
  unfold Ledger.reclaim
  dsimp only
  generalize l.unlinkFromChain r.account claim.index = l₁ at hrel hw ⊢
  -- the claim is still in the slab, with its links cleared
  obtain ⟨r₁, hr₁, hrc⟩ : ∃ r₁, l₁.reservation claim = some r₁ ∧ r₁.toClaim = r.toClaim := by
    apply reservation_of_claims
    rw [hrel.book, book_claims hr]
  have hle : ∀ m', l₁.account r.account = some m' → r.amount ≤ m'.reserved := by
    intro m' hm'
    have htot := account_eq_of_book (a := r.account) hrel.book
    rw [hm', hm, Option.map_some, Option.map_some, Option.some.injEq] at htot
    have := h.amount_le_reserved hr hs hm
    simp only [MirroredBalance.totals, Totals.mk.injEq] at htot
    omega
  have hw₂ := hw.lowerReserved r.account r.amount
  have hbook₂ : (l₁.lowerReserved r.account r.amount).book =
      l.book.modifyTotals r.account fun t => { t with reserved := t.reserved - r.amount } := by
    rw [book_lowerReserved, hrel.book]
  have hkept₂ : Kept l (l₁.lowerReserved r.account r.amount) :=
    hrel.kept.trans (kept_lowerReserved hle)
  have hres₂ : (l₁.lowerReserved r.account r.amount).reservations = l₁.reservations := rfl
  generalize l₁.lowerReserved r.account r.amount = l₂ at hw₂ hbook₂ hkept₂ hres₂ ⊢
  have howner : (l₂.ownerClaim r.owner).isSome := by
    have hheld := h.balanced.held _ _ (book_claims hr)
    rw [← ownerClaim_book, hbook₂, Book.ownerClaim_modifyTotals]
    simp [Reservation.toClaim] at hheld
    simp [hheld]
  have hw₃ := hw₂.setOwnerClaim r.owner none
  have hr₃ : (l₂.setOwnerClaim r.owner none).reservation claim = some r₁ := by
    rw [reservation_eq_of_reservations ((reservations_setOwnerClaim _ _).trans hres₂), hr₁]
  obtain ⟨hw₄, hbook₄, hkept₄, hroom₄⟩ := hw₃.removeReservation hr₃
  have hbook : ((l₂.setOwnerClaim r.owner none).removeReservation claim).book =
      l.book.free claim r.toClaim := by
    rw [hbook₄, book_setOwnerClaim, hbook₂, hrc]
    rfl
  refine ⟨⟨hw₄, ?_⟩, hbook, (hkept₂.trans (kept_setOwnerClaim howner)).trans hkept₄, ?_⟩
  · rw [hbook]
    exact h.balanced.free (book_claims hr) hs
  · rw [hroom₄, reservations_setOwnerClaim, hres₂]
    simp only [Slab.hasRoom, hrel.room]

/-- Two assignments that agree on the stored record are one. -/
theorem modifyAccount_congr {f g : MirroredBalance → MirroredBalance}
    (h : ∀ m, l.account account = some m → f m = g m) :
    l.modifyAccount account f = l.modifyAccount account g := by
  unfold modifyAccount
  congr 1
  apply List.ext_getElem?
  intro i
  simp only [List.getElem?_modify]
  split
  next hi =>
    subst hi
    cases hm : l.accounts[account]? with
    | none => rfl
    | some m => exact congrArg some (h m hm)
  next => rfl

/-- A successful `release` reclaims the claim. -/
theorem Intact.release (h : l.Intact) (hr : l.reservation claim = some r)
    (hs : r.toClaim.status = .reserved e) :
    l.release claim = (.ok r.amount, l.reclaim r.account claim r) := by
  obtain ⟨m, hm⟩ := h.account_of_claim hr
  have hle := h.amount_le_reserved hr hs hm
  have hat : l.reservationAt claim.index = some r := Slab.valueAt_of_get hr
  have hrel : Relinks l (l.unlinkFromChain r.account claim.index) :=
    relinks_unlinkFromChain (by simp [hat])
  have hfree : r.isCommitted = false := Reservation.isCommitted_eq_false.mpr ⟨e, hs⟩
  have hsub : checkedSub m.reserved r.amount = some (m.reserved - r.amount) :=
    checkedSub_eq_some.mpr ⟨hle, rfl⟩
  have hreserved : ∀ m', (l.unlinkFromChain r.account claim.index).account r.account = some m' →
      m'.reserved = m.reserved := by
    intro m' hm'
    have htot := account_eq_of_book (a := r.account) hrel.book
    rw [hm', hm, Option.map_some, Option.map_some, Option.some.injEq] at htot
    exact congrArg Totals.reserved htot
  simp only [Ledger.release, hr, hfree, hm, hsub, Bool.false_eq_true, if_false]
  refine Prod.ext rfl ?_
  unfold Ledger.reclaim lowerReserved
  dsimp only
  rw [debugAssert_of_true, modifyAccount_congr]
  · intro m' hm'
    rw [hreserved m' hm']
    rfl
  · cases hm' : (l.unlinkFromChain r.account claim.index).account r.account with
    | none => rfl
    | some m' => simpa [hreserved m' hm'] using hle

-- ============================================================================
-- Committing a reserved claim
-- ============================================================================

/-- `l'` is `l` with one reserved claim cut to `keep` and moved to `request`'s
    committed list. -/
structure Commits (l : Ledger) (claim : ResIdx) (k : Claim) (request : ReqIdx) (keep : Nat)
    (l' : Ledger) : Prop where
  intact : l'.Intact
  book : l'.book = l.book.commit claim k request keep
  kept : Kept l l'

theorem rewriteClaim_rewriteClaim {b : Book} {k k' k'' : Claim} :
    (((b.dropClaim claim k).putClaim claim k').dropClaim claim k').putClaim claim k'' =
      (b.dropClaim claim k).putClaim claim k'' := by
  ext1
  case claims => simp [Book.dropClaim, Book.putClaim]
  case sum =>
    funext f
    simp only [Book.dropClaim, Book.putClaim]
    omega
  all_goals rfl

theorem modifyTotals_modifyTotals {b : Book} {f g : Totals → Totals} :
    (b.modifyTotals account f).modifyTotals account g =
      b.modifyTotals account fun t => g (f t) := by
  ext1
  case totals => simp [Book.modifyTotals, Function.comp_def]
  all_goals rfl

theorem totals_of_relinks {l' : Ledger} {m m' : MirroredBalance} (h : l'.book = l.book)
    (hm : l.account a = some m) (hm' : l'.account a = some m') : m'.totals = m.totals := by
  have htot := account_eq_of_book (a := a) h
  rwa [hm', hm, Option.map_some, Option.map_some, Option.some.injEq] at htot

/-- The commit phase's `commit`. -/
theorem Intact.commitKeeping (keep : Nat) (h : l.Intact) (hr : l.reservation claim = some r)
    (hs : r.toClaim.status = .reserved e) (hreq : (l.request request).isSome)
    (hkeep : keep ≤ r.amount) :
    Commits l claim r.toClaim request keep (CommitPhase.commit l claim request keep) := by
  obtain ⟨m, hm⟩ := h.account_of_claim hr
  have hle := h.amount_le_reserved hr hs hm
  have hbound := h.balanced.bounded _ _ (book_totals hm)
  have hat : l.reservationAt claim.index = some r := Slab.valueAt_of_get hr
  have hrel : Relinks l (l.unlinkFromChain r.account claim.index) :=
    relinks_unlinkFromChain (by simp [hat])
  have hw := h.wired.unlink hat hs (by simp [hm])
  have hfree : r.isCommitted = false := Reservation.isCommitted_eq_false.mpr ⟨e, hs⟩
  have hpart : ∀ t, l.book.totals r.toClaim.account = some t → r.toClaim.amount ≤ t.reserved := by
    intro t ht
    rw [show l.book.totals r.toClaim.account = some m.totals from book_totals hm,
      Option.some.injEq] at ht
    rw [← ht]
    exact hle
  have hresolve : (l.book.requests request).isSome := by simpa [book] using hreq
  simp only [CommitPhase.commit, hr, hfree, Bool.false_eq_true, if_false, hkeep, decide_true,
    debugAssert_of_true, Nat.min_eq_left hkeep]
  generalize l.unlinkFromChain r.account claim.index = l₁ at hrel hw ⊢
  obtain ⟨r₁, hr₁, hrc⟩ : ∃ r₁, l₁.reservation claim = some r₁ ∧ r₁.toClaim = r.toClaim := by
    apply reservation_of_claims
    rw [hrel.book, book_claims hr]
  have hreq₁ : (l₁.request request).isSome := by
    have hsome := congrArg Option.isSome (congrFun (congrArg Book.requests hrel.book) request)
    simpa [book, hreq] using hsome
  have hm₁ : ∀ m', l₁.account r.account = some m' → m'.totals = m.totals :=
    fun m' hm' => totals_of_relinks hrel.book hm hm'
  -- cut the claim down to what is kept
  have hw₂ := hw.rewrite (f := fun r => r.setAmount keep)
  have hbook₂ := book_rewrite (f := fun r => r.setAmount keep) hr₁
  have hkept₂ := hrel.kept.trans
    (kept_modifyReservationAt (l := l₁) claim.index fun r => r.setAmount keep)
  have hr₂ : (l₁.modifyReservationAt claim.index fun r => r.setAmount keep).reservation claim =
      some (r₁.setAmount keep) := by
    have : l₁.reservations.get claim = some r₁ := hr₁
    simp [reservation, modifyReservationAt, Slab.get_modifyAt, this]
  have hreq₂ : ((l₁.modifyReservationAt claim.index fun r => r.setAmount keep).request
      request).isSome := hreq₁
  have hacc₂ : (l₁.modifyReservationAt claim.index fun r => r.setAmount keep).accounts =
      l₁.accounts := rfl
  generalize (l₁.modifyReservationAt claim.index fun r => r.setAmount keep) = l₂
    at hw₂ hbook₂ hkept₂ hr₂ hreq₂ hacc₂ ⊢
  obtain ⟨hw₃, hbook₃, hkept₃, -, hacc₃⟩ := hw₂.list hr₂ hreq₂
  generalize l₂.linkIntoCommittedList request claim.index = l₃ at hw₃ hbook₃ hkept₃ hacc₃ ⊢
  have hm₃ : ∀ m', l₃.account r.account = some m' → m'.totals = m.totals := by
    intro m' hm'
    apply hm₁
    rwa [account, hacc₃, hacc₂] at hm'
  -- move the totals across
  have hle₃ : ∀ m', l₃.account r.account = some m' → r.amount ≤ m'.reserved := by
    intro m' hm'
    have := congrArg Totals.reserved (hm₃ m' hm')
    simp only [MirroredBalance.totals] at this
    omega
  have hw₄ := hw₃.lowerReserved r.account r.amount
  have hm₄ : ∀ m', (l₃.lowerReserved r.account r.amount).account r.account = some m' →
      m'.committed = m.committed := by
    intro m' hm'
    have hm' : (l₃.modifyAccount r.account fun e =>
      { e with reserved := saturatingSub e.reserved r.amount }).account r.account = some m' := hm'
    rw [account_modifyAccount, if_pos rfl] at hm'
    obtain ⟨m₀, hm₀, rfl⟩ := Option.map_eq_some_iff.mp hm'
    exact congrArg Totals.committed (hm₃ m₀ hm₀)
  have hfits : ∀ m', (l₃.lowerReserved r.account r.amount).account r.account = some m' →
      m'.committed + keep ≤ u64Max := by
    intro m' hm'
    rw [hm₄ m' hm']
    simp only [MirroredBalance.totals] at hbound
    omega
  have hw₅ := hw₄.raiseCommitted r.account keep
  have hbook₅ := book_raiseCommitted hfits
  have hbook : ((l₃.lowerReserved r.account r.amount).raiseCommitted r.account keep).book =
      l.book.commit claim r.toClaim request keep := by
    rw [hbook₅, book_lowerReserved, modifyTotals_modifyTotals, hbook₃, hbook₂,
      rewriteClaim_rewriteClaim, hrel.book, hrc]
    have hk : (r₁.setAmount keep).toClaim.committedAs request (r₁.setAmount keep).amount =
        r.toClaim.committedAs request keep := by
      rw [← hrc]
      rfl
    rw [hk]
    rfl
  refine ⟨⟨hw₅, ?_⟩, hbook, ?_⟩
  · rw [hbook]
    exact h.balanced.commit (book_claims hr) hs hresolve hkeep hpart
  · exact (hkept₂.trans hkept₃).trans
      ((kept_lowerReserved hle₃).trans (kept_raiseCommitted hfits))

/-- The ledger's `commit`, which keeps the whole claim. -/
theorem Intact.commit (h : l.Intact) (hr : l.reservation claim = some r)
    (hs : r.toClaim.status = .reserved e) (hreq : (l.request request).isSome) :
    (l.commit claim request).1 = .ok () ∧
      Commits l claim r.toClaim request r.amount (l.commit claim request).2 := by
  obtain ⟨m, hm⟩ := h.account_of_claim hr
  have hle := h.amount_le_reserved hr hs hm
  have hbound := h.balanced.bounded _ _ (book_totals hm)
  simp only [MirroredBalance.totals] at hbound
  have hat : l.reservationAt claim.index = some r := Slab.valueAt_of_get hr
  have hrel : Relinks l (l.unlinkFromChain r.account claim.index) :=
    relinks_unlinkFromChain (by simp [hat])
  have hw := h.wired.unlink hat hs (by simp [hm])
  have hfree : r.isCommitted = false := Reservation.isCommitted_eq_false.mpr ⟨e, hs⟩
  have hresolve : (l.book.requests request).isSome := by simpa [book] using hreq
  have hpart : ∀ t, l.book.totals r.toClaim.account = some t → r.toClaim.amount ≤ t.reserved := by
    intro t ht
    rw [show l.book.totals r.toClaim.account = some m.totals from book_totals hm,
      Option.some.injEq] at ht
    rw [← ht]
    exact hle
  have hsub : checkedSub m.reserved r.amount = some (m.reserved - r.amount) :=
    checkedSub_eq_some.mpr ⟨hle, rfl⟩
  have hadd : checkedAdd m.committed r.amount = some (m.committed + r.amount) :=
    checkedAdd_eq_some.mpr ⟨by omega, rfl⟩
  have hsome : (l.request request).isNone = false := by
    cases hreq' : l.request request <;> simp_all
  simp only [Ledger.commit, hr, hfree, hsome, hm, hsub, hadd, Bool.false_eq_true, if_false,
    true_and]
  generalize l.unlinkFromChain r.account claim.index = l₁ at hrel hw ⊢
  obtain ⟨r₁, hr₁, hrc⟩ : ∃ r₁, l₁.reservation claim = some r₁ ∧ r₁.toClaim = r.toClaim := by
    apply reservation_of_claims
    rw [hrel.book, book_claims hr]
  have hreq₁ : (l₁.request request).isSome := by
    have hsome := congrArg Option.isSome (congrFun (congrArg Book.requests hrel.book) request)
    simpa [book, hreq] using hsome
  obtain ⟨hw₂, hbook₂, hkept₂, -, hacc₂⟩ := hw.list hr₁ hreq₁
  generalize l₁.linkIntoCommittedList request claim.index = l₂ at hw₂ hbook₂ hkept₂ hacc₂ ⊢
  have hm₂ : ∀ m', l₂.account r.account = some m' → m'.totals = m.totals := by
    intro m' hm'
    refine totals_of_relinks hrel.book hm ?_
    rwa [account, hacc₂] at hm'
  have hamount : r₁.amount = r.amount := congrArg Claim.amount hrc
  have hbook : (l₂.modifyAccount r.account fun e =>
      { e with reserved := m.reserved - r.amount, committed := m.committed + r.amount }).book =
      l.book.commit claim r.toClaim request r.amount := by
    have hsame : (l₂.modifyAccount r.account fun e =>
        { e with reserved := m.reserved - r.amount, committed := m.committed + r.amount }) =
        l₂.modifyAccount r.account fun e =>
          { e with reserved := e.reserved - r.amount, committed := e.committed + r.amount } := by
      apply modifyAccount_congr
      intro m' hm'
      have htot := hm₂ m' hm'
      simp only [MirroredBalance.totals, Totals.mk.injEq] at htot
      simp [htot.2.1, htot.2.2]
    rw [hsame, book_modifyAccount (fun t =>
      { t with reserved := t.reserved - r.amount, committed := t.committed + r.amount })
      fun _ => rfl, hbook₂, hrel.book, hrc, hamount]
    rfl
  refine ⟨⟨hw₂.modifyAccount _ fun _ => rfl, ?_⟩, hbook,
    (hrel.kept.trans hkept₂).trans (kept_modifyAccount _)⟩
  rw [hbook]
  exact h.balanced.commit (book_claims hr) hs hresolve (le_refl r.amount) hpart

-- ============================================================================
-- Reserving
-- ============================================================================

/-- What the ledger asks of a new claim. -/
structure Admits (l : Ledger) (account amount : Nat) (m : MirroredBalance) : Prop where
  account : l.account account = some m
  fits : m.reserved + m.committed + amount ≤ u64Max
  covered : m.reserved + m.committed + amount ≤ m.free

theorem checkReservable_eq_ok {reserved : Nat} :
    l.checkReservable account amount = .ok reserved ↔
      ∃ m, Admits l account amount m ∧ reserved = m.reserved + amount := by
  unfold checkReservable
  cases hm : l.account account with
  | none =>
      refine ⟨fun h => (by simp at h), ?_⟩
      rintro ⟨m, hadm, -⟩
      rw [hadm.account] at hm
      cases hm
  | some m =>
      simp only
      constructor
      · intro h
        split at h
        · cases h
        next claimed hclaimed =>
        simp only [Option.bind_eq_some_iff, checkedAdd_eq_some] at hclaimed
        obtain ⟨_, ⟨_, rfl⟩, hfits, rfl⟩ := hclaimed
        split at h
        · cases h
        next hcov =>
        split at h
        · cases h
        next reserved' hreserved =>
        cases h
        obtain ⟨-, rfl⟩ := checkedAdd_eq_some.mp hreserved
        exact ⟨m, ⟨hm, hfits, by omega⟩, rfl⟩
      · rintro ⟨m', ⟨hm', hfits, hcov⟩, rfl⟩
        rw [hm, Option.some.injEq] at hm'
        subst hm'
        have h₁ : checkedAdd m.reserved m.committed = some (m.reserved + m.committed) :=
          checkedAdd_eq_some.mpr ⟨by omega, rfl⟩
        have h₂ : checkedAdd (m.reserved + m.committed) amount =
            some (m.reserved + m.committed + amount) := checkedAdd_eq_some.mpr ⟨hfits, rfl⟩
        have h₃ : checkedAdd m.reserved amount = some (m.reserved + amount) :=
          checkedAdd_eq_some.mpr ⟨by omega, rfl⟩
        have hcov' : ¬ m.free < m.reserved + m.committed + amount := by omega
        simp [h₁, h₂, h₃, hcov']

/-- `l'` is `l` with one claim reserved. -/
structure Reserves (l : Ledger) (claim : ResIdx) (k : Claim) (l' : Ledger) : Prop where
  intact : l'.Intact
  book : l'.book = l.book.reserve claim k
  fresh : l.book.claims claim = none
  kept : Kept l l'

/-- A slot filled with a fresh claim, linked nowhere yet. -/
theorem Intact.insertReservation {reservations : Slab .reservation Reservation} (h : l.Intact)
    (hr : (Reservation.reserved account amount owner e) = r)
    (hins : l.reservations.insert r = some (claim, reservations)) :
    ({ l with reservations }).Wired (some claim.index) ∧
      ({ l with reservations }).book = l.book.putClaim claim r.toClaim ∧
      ({ l with reservations }).reservation claim = some r ∧ l.book.claims claim = none := by
  obtain ⟨hfresh, hget⟩ := Slab.get_insert hins
  obtain ⟨hempty, hvalue⟩ := Slab.valueAt_insert hins
  obtain ⟨E, C, ht⟩ := h.wired.threads
  have hclaims : ({ l with reservations }).reservation claim = some r := by
    rw [reservation, hget, if_pos rfl]
  refine ⟨⟨h.wired.reservations.insert hins, h.wired.requests, h.wired.quotes, ⟨E, C, ?_⟩⟩, ?_, hclaims, ?_⟩
  · have hnone : l.links.claim claim.index = none := by
      simp [links, reservationAt, hempty]
    have hlinks : ({ l with reservations }).links = l.links.putSlot claim.index r.toClaim := by
      ext1
      case node =>
        funext i
        simp only [links, reservationAt, hvalue, LinkView.putSlot, Function.update_apply]
        split
        next => rw [← hr]; rfl
        next => rfl
      case claim =>
        funext i
        simp only [links, reservationAt, hvalue, LinkView.putSlot, Function.update_apply]
        split <;> rfl
      all_goals rfl
    rw [hlinks]
    exact ht.putSlot hnone
  · ext1
    case claims =>
      funext c
      simp only [book, reservation, hget, Book.putClaim, Function.update_apply]
      split <;> rfl
    case sum =>
      funext f
      exact Slab.sum_insert _ hins
    all_goals rfl
  · simp [book, reservation, hfresh]

/-- Reserving an admitted claim for an owner that holds none. -/
theorem Intact.linkClaim {reservations : Slab .reservation Reservation} {m : MirroredBalance}
    (h : l.Intact) (howner : l.ownerClaim owner = some none) (hadm : Admits l account amount m)
    (hins : l.reservations.insert (Reservation.reserved account amount owner e) =
      some (claim, reservations)) :
    Reserves l claim ⟨account, amount, owner, .reserved e⟩
      (({ l with reservations }).linkClaim account claim e owner (m.reserved + amount)) := by
  obtain ⟨hw, hbook, hr, hfresh⟩ := h.insertReservation rfl hins
  have hk : (Reservation.reserved account amount owner e).toClaim =
      ⟨account, amount, owner, .reserved e⟩ := rfl
  rw [hk] at hbook
  have hm₀ : ({ l with reservations }).account account = some m := hadm.account
  have hkept₀ : Kept l { l with reservations } :=
    ⟨rfl, Slab.length_insert hins, rfl, rfl, rfl, rfl, rfl⟩
  generalize { l with reservations } = l₀ at hw hbook hr hm₀ hkept₀ ⊢
  have hat : l₀.reservationAt claim.index = some (Reservation.reserved account amount owner e) :=
    Slab.valueAt_of_get hr
  obtain ⟨hw₁, hrel⟩ := hw.link hat (e := e) rfl (by
    rw [show (Reservation.reserved account amount owner e).account = account from rfl, hm₀]
    rfl)
  unfold Ledger.linkClaim
  dsimp only
  rw [show (Reservation.reserved account amount owner e).account = account from rfl] at hw₁ hrel
  generalize l₀.linkIntoExpiryChain account claim.index e = l₁ at hw₁ hrel ⊢
  have hbook₂ : (l₁.modifyAccount account fun e => { e with reserved := m.reserved + amount }).book =
      l₀.book.modifyTotals account fun t => { t with reserved := t.reserved + amount } := by
    rw [modifyAccount_congr (g := fun e => { e with reserved := e.reserved + amount })]
    · rw [book_modifyAccount (fun t => { t with reserved := t.reserved + amount }) fun _ => rfl,
        hrel.book]
    · intro m' hm'
      have htot := congrArg Totals.reserved (totals_of_relinks hrel.book hm₀ hm')
      simp only [MirroredBalance.totals] at htot
      rw [htot]
  have hw₂ := hw₁.modifyAccount account
    (f := fun e => { e with reserved := m.reserved + amount }) fun _ => rfl
  have hkept₂ := (hkept₀.trans hrel.kept).trans (kept_modifyAccount account
    (f := fun e => { e with reserved := m.reserved + amount }))
  generalize (l₁.modifyAccount account fun e => { e with reserved := m.reserved + amount }) = l₂
    at hbook₂ hw₂ hkept₂ ⊢
  have howner₀ : l.book.ownerClaim owner = some none := by rw [ownerClaim_book, howner]
  have howner₂ : (l₂.ownerClaim owner).isSome := by
    rw [← ownerClaim_book, hbook₂, Book.ownerClaim_modifyTotals, hbook, Book.ownerClaim_putClaim,
      howner₀]
    rfl
  have hfinal : (l₂.setOwnerClaim owner (some claim)).book =
      l.book.reserve claim ⟨account, amount, owner, .reserved e⟩ := by
    rw [book_setOwnerClaim, hbook₂, hbook]
    cases owner <;> rfl
  refine ⟨⟨hw₂.setOwnerClaim _ _, ?_⟩, hfinal, hfresh, hkept₂.trans (kept_setOwnerClaim howner₂)⟩
  rw [hfinal]
  exact h.balanced.reserve hfresh howner₀ rfl (book_totals hadm.account) hadm.fits

/-- `reserve` refuses and changes nothing, or reserves. -/
theorem Intact.reserve (h : l.Intact) :
    (∃ err, l.reserve account amount e owner = (.error err, l)) ∨
      ∃ claim l', l.reserve account amount e owner = (.ok claim, l') ∧
        Reserves l claim ⟨account, amount, owner, .reserved e⟩ l' := by
  unfold Ledger.reserve
  split
  · exact .inl ⟨_, rfl⟩
  · exact .inl ⟨_, rfl⟩
  next howner =>
  split
  · exact .inl ⟨_, rfl⟩
  next reserved hreserved =>
  obtain ⟨m, hadm, rfl⟩ := checkReservable_eq_ok.mp hreserved
  split
  · exact .inl ⟨_, rfl⟩
  next claim reservations hins => exact .inr ⟨claim, _, rfl, h.linkClaim howner hadm hins⟩

-- ============================================================================
-- Opening and closing records
-- ============================================================================

/-- A quote slot written with a record that holds no claim. -/
theorem Intact.insertQuote {quotes : Slab .quote Quote} {record : Quote} (h : l.Intact)
    (hrecord : record.claim = none) (hins : l.quotes.insert record = some (quote, quotes)) :
    ({ l with quotes }).Intact ∧ ({ l with quotes }).book = l.book.setQuote quote (some record) ∧
      l.book.quotes quote = none := by
  obtain ⟨hfresh, hget⟩ := Slab.get_insert hins
  have hbook : ({ l with quotes }).book = l.book.setQuote quote (some record) := by
    ext1
    case quotes =>
      funext q
      simp only [book, Ledger.quote, hget, Book.setQuote, Function.update_apply]
    all_goals rfl
  refine ⟨⟨⟨h.wired.reservations, h.wired.requests, h.wired.quotes.insert hins, h.wired.threads⟩, ?_⟩, hbook, hfresh⟩
  rw [hbook]
  refine h.balanced.setQuote ?_ ?_
  · intro q hq
    rw [book_quotes, Ledger.quote, hfresh] at hq
    cases hq
  · rintro _ ⟨⟩
    exact hrecord

/-- A quote slot freed, once it holds no claim. -/
theorem Intact.removeQuote (h : l.Intact)
    (hrecord : ∀ q, l.quote quote = some q → q.claim = none) :
    ({ l with quotes := (l.quotes.remove quote).2 }).Intact ∧
      ({ l with quotes := (l.quotes.remove quote).2 }).book = l.book.setQuote quote none ∧
      Sized l { l with quotes := (l.quotes.remove quote).2 } := by
  have hbook : ({ l with quotes := (l.quotes.remove quote).2 }).book =
      l.book.setQuote quote none := by
    cases hq : l.quotes.get quote with
    | none =>
        rw [Slab.remove_of_stale hq]
        ext1
        case quotes =>
          funext q
          simp only [book, Book.setQuote, Function.update_apply]
          split
          next heq => rw [heq]; exact hq
          next => rfl
        all_goals rfl
    | some q =>
        ext1
        case quotes =>
          funext q'
          simp only [book, Ledger.quote, Slab.get_remove (show (l.quotes.get quote).isSome by simp [hq]),
            Book.setQuote, Function.update_apply]
        all_goals rfl
  refine ⟨⟨⟨h.wired.reservations, h.wired.requests, h.wired.quotes.remove, h.wired.threads⟩, ?_⟩, hbook, ⟨rfl, rfl, Slab.length_remove, rfl, rfl⟩⟩
  rw [hbook]
  refine h.balanced.setQuote ?_ ?_
  · intro q hq
    exact hrecord q hq
  · rintro _ ⟨⟩

/-- A request slot written with a record that holds nothing. -/
theorem Intact.insertRequest {requests : Slab .request Request} {record : Request} (h : l.Intact)
    (hclaim : record.claim = none) (hhead : record.committedHead = none)
    (hins : l.requests.insert record = some (request, requests)) :
    ({ l with requests }).Intact ∧
      ({ l with requests }).book = l.book.setRequest request (some record) ∧
      l.book.requests request = none := by
  obtain ⟨hfresh, hget⟩ := Slab.get_insert hins
  have hunlinked : record.unlinked = record := by
    rw [Request.unlinked, ← hhead]
  have hnone : l.book.requests request = none := by simp [book, Ledger.request, hfresh]
  have hbook : ({ l with requests }).book = l.book.setRequest request (some record) := by
    ext1
    case requests =>
      funext q
      simp only [book, Ledger.request, hget, Book.setRequest, Function.update_apply]
      split
      next => rw [Option.map_some, hunlinked]
      next => rfl
    all_goals rfl
  obtain ⟨E, C, ht⟩ := h.wired.threads
  have hC : C request = [] := by
    rw [List.eq_nil_iff_forall_not_mem]
    intro i hi
    obtain ⟨k, hk, hs⟩ := ht.claim_of_mem_list hi
    obtain ⟨r, hr, rfl⟩ := Option.map_eq_some_iff.mp hk
    obtain ⟨claim, -, hget'⟩ := Slab.valueAt_eq_some.mp hr
    have := h.balanced.listed claim _ _ (book_claims hget') hs
    simp [hnone] at this
  refine ⟨⟨⟨h.wired.reservations, h.wired.requests.insert hins, h.wired.quotes, ⟨E, C, ?_⟩⟩, ?_⟩, hbook, hnone⟩
  · have hlinks : ({ l with requests }).links =
        { l.links with listHead := Function.update l.links.listHead request (some none) } := by
      ext1
      case listHead =>
        funext q
        simp only [links, Ledger.request, hget, Function.update_apply]
        split
        next => rw [Option.map_some, hhead]
        next => rfl
      all_goals rfl
    rw [hlinks]
    exact ht.setListHead (.inr ⟨rfl, hC⟩)
  · rw [hbook]
    refine h.balanced.setRequest ?_ ?_ fun hnone => by cases hnone
    · intro q hq
      rw [hnone] at hq
      cases hq
    · rintro _ ⟨⟩
      exact hclaim

/-- A request slot freed, once it holds neither a claim nor a list. -/
theorem Intact.removeRequest {record : Request} (h : l.Intact)
    (hrecord : l.request request = some record) (hclaim : record.claim = none)
    (hhead : record.committedHead = none) :
    ({ l with requests := (l.requests.remove request).2 }).Intact ∧
      ({ l with requests := (l.requests.remove request).2 }).book =
        l.book.setRequest request none := by
  have hsome : (l.requests.get request).isSome := by
    rw [show l.requests.get request = some record from hrecord]
    rfl
  have hbook : ({ l with requests := (l.requests.remove request).2 }).book =
      l.book.setRequest request none := by
    ext1
    case requests =>
      funext q
      simp only [book, Ledger.request, Slab.get_remove hsome, Book.setRequest,
        Function.update_apply]
      split <;> rfl
    all_goals rfl
  obtain ⟨E, C, ht⟩ := h.wired.threads
  have hC : C request = [] := by
    have := (ht.list request none (by simp [links, hrecord, hhead])).1
    simpa using this.symm
  refine ⟨⟨⟨h.wired.reservations, h.wired.requests.remove, h.wired.quotes, ⟨E, C, ?_⟩⟩, ?_⟩, hbook⟩
  · have hlinks : ({ l with requests := (l.requests.remove request).2 }).links =
        { l.links with listHead := Function.update l.links.listHead request none } := by
      ext1
      case listHead =>
        funext q
        simp only [links, Ledger.request, Slab.get_remove hsome, Function.update_apply]
        split <;> rfl
      all_goals rfl
    rw [hlinks]
    exact ht.setListHead (.inl rfl)
  · rw [hbook]
    refine h.balanced.setRequest ?_ (fun _ hq => by cases hq) ?_
    · intro q hq
      rw [book_requests hrecord, Option.some.injEq] at hq
      rw [← hq]
      exact hclaim
    · intro _ claim k hk hs
      obtain ⟨r, hr, rfl⟩ := reservation_of_claims hk
      have hi : claim.index ∈ C request := (ht.list_mem request claim.index).mpr
        ⟨by simp, r.toClaim, by simp [links, reservationAt, Slab.valueAt_of_get hr], hs⟩
      rw [hC] at hi
      cases hi

/-- When a quote can be opened and reserved against. -/
def CanOpenQuote (l : Ledger) (maker amount : Nat) : Prop :=
  (∃ m, Admits l maker amount m) ∧ l.quotes.hasRoom ∧ l.reservations.hasRoom

theorem Intact.openQuoteReserving_ok {record : Quote} (h : l.Intact) (hrecord : record.claim = none)
    (hopen : CanOpenQuote l record.maker amount) :
    ∃ quote claim l', l.openQuoteReserving record amount = (.ok (quote, claim), l') ∧
      l'.Intact ∧ Sized l l' ∧ l.book.quotes quote = none ∧ l.book.claims claim = none ∧
      l'.book = (l.book.setQuote quote (some record)).reserve claim
        ⟨record.maker, amount, .quote quote, .reserved record.expiresAt⟩ := by
  obtain ⟨⟨m, hadm⟩, hquotes, hreservations⟩ := hopen
  have hcheck : l.checkReservable record.maker amount = .ok (m.reserved + amount) :=
    checkReservable_eq_ok.mpr ⟨m, hadm, rfl⟩
  obtain ⟨⟨quote, quotes⟩, hins⟩ :=
    Option.isSome_iff_exists.mp (h.wired.quotes.insert_isSome hquotes record)
  obtain ⟨h₁, hbook₁, hfresh⟩ := h.insertQuote hrecord hins
  obtain ⟨⟨claim, reservations⟩, hins'⟩ := Option.isSome_iff_exists.mp
    (h.wired.reservations.insert_isSome hreservations
      (Reservation.reserved record.maker amount (.quote quote) record.expiresAt))
  have howner : ({ l with quotes }).ownerClaim (.quote quote) = some none := by
    simp only [Ledger.ownerClaim, Ledger.quote, (Slab.get_insert hins).2, if_true, Option.map_some,
      hrecord]
  have hres := h₁.linkClaim howner (e := record.expiresAt) ⟨hadm.account, hadm.fits, hadm.covered⟩
    hins'
  have hsized : Sized l { l with quotes } := ⟨rfl, rfl, Slab.length_insert hins, rfl, rfl⟩
  refine ⟨quote, claim, _, ?_, hres.intact, hsized.trans hres.kept.sized, hfresh, hres.fresh, ?_⟩
  · simp [Ledger.openQuoteReserving, hcheck, hquotes, hreservations, hins, hins']
  · rw [hres.book, hbook₁]

theorem openQuoteReserving_error (record : Quote) (amount : Nat)
    (hopen : ¬ CanOpenQuote l record.maker amount) :
    ∃ err, l.openQuoteReserving record amount = (.error err, l) := by
  unfold Ledger.openQuoteReserving
  split
  · exact ⟨_, rfl⟩
  next reserved hreserved =>
  obtain ⟨m, hadm, rfl⟩ := checkReservable_eq_ok.mp hreserved
  split
  · exact ⟨_, rfl⟩
  next hquotes =>
  split
  · exact ⟨_, rfl⟩
  next hreservations =>
  exact absurd ⟨⟨m, hadm⟩, by simpa using hquotes, by simpa using hreservations⟩ hopen

/-- When a request can be opened and reserved against. -/
def CanOpenRequest (l : Ledger) (requester amount : Nat) : Prop :=
  (∃ m, Admits l requester amount m) ∧ l.requests.hasRoom ∧ l.reservations.hasRoom

theorem Intact.openRequestReserving_ok {record : Request} (h : l.Intact)
    (hclaim : record.claim = none) (hhead : record.committedHead = none)
    (hopen : CanOpenRequest l record.requester amount) :
    ∃ request claim l', l.openRequestReserving record amount = (.ok (request, claim), l') ∧
      l'.Intact ∧ Sized l l' ∧ l.book.requests request = none ∧ l.book.claims claim = none ∧
      l'.book = (l.book.setRequest request (some record)).reserve claim
        ⟨record.requester, amount, .request request, .reserved record.deadline⟩ := by
  obtain ⟨⟨m, hadm⟩, hrequests, hreservations⟩ := hopen
  have hcheck : l.checkReservable record.requester amount = .ok (m.reserved + amount) :=
    checkReservable_eq_ok.mpr ⟨m, hadm, rfl⟩
  obtain ⟨⟨request, requests⟩, hins⟩ :=
    Option.isSome_iff_exists.mp (h.wired.requests.insert_isSome hrequests record)
  obtain ⟨h₁, hbook₁, hfresh⟩ := h.insertRequest hclaim hhead hins
  obtain ⟨⟨claim, reservations⟩, hins'⟩ := Option.isSome_iff_exists.mp
    (h.wired.reservations.insert_isSome hreservations
      (Reservation.reserved record.requester amount (.request request) record.deadline))
  have howner : ({ l with requests }).ownerClaim (.request request) = some none := by
    simp only [Ledger.ownerClaim, Ledger.request, (Slab.get_insert hins).2, if_true,
      Option.map_some, hclaim]
  have hres := h₁.linkClaim howner (e := record.deadline) ⟨hadm.account, hadm.fits, hadm.covered⟩
    hins'
  have hsized : Sized l { l with requests } :=
    ⟨rfl, rfl, rfl, Slab.generations_insert hins, rfl⟩
  refine ⟨request, claim, _, ?_, hres.intact, hsized.trans hres.kept.sized, hfresh, hres.fresh, ?_⟩
  · simp [Ledger.openRequestReserving, hcheck, hrequests, hreservations, hins, hins']
  · rw [hres.book, hbook₁]

theorem openRequestReserving_error {record : Request}
    (hopen : ¬ CanOpenRequest l record.requester amount) :
    ∃ err, l.openRequestReserving record amount = (.error err, l) := by
  unfold Ledger.openRequestReserving
  split
  · exact ⟨_, rfl⟩
  next reserved hreserved =>
  obtain ⟨m, hadm, rfl⟩ := checkReservable_eq_ok.mp hreserved
  split
  · exact ⟨_, rfl⟩
  next hrequests =>
  split
  · exact ⟨_, rfl⟩
  next hreservations =>
  exact absurd ⟨⟨m, hadm⟩, by simpa using hrequests, by simpa using hreservations⟩ hopen

end Ledger

end RfqSettlement
