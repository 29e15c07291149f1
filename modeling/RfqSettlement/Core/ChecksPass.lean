/-
  RfqSettlement.Core.ChecksPass

  The ledger's own checker accepts every intact ledger.  Each walk of the checker
  is run along the chain it walks, and what it accumulates is the book's total of
  the same figure; the counts of the two chain families add up to the occupied
  slots because every claim is on exactly one chain.
-/

import RfqSettlement.Core.ClaimWalks

namespace RfqSettlement

-- ============================================================================
-- Figures of a claim
-- ============================================================================

/-- `w` of a claim reserved on `account`. -/
def Claim.reservedOf (account : Nat) (w : Claim → Nat) (k : Claim) : Nat :=
  match k.status with
  | .reserved _ => if k.account = account then w k else 0
  | .committed _ => 0

/-- `w` of a claim reserved on one of the first `n` accounts. -/
def Claim.reservedBelow (n : Nat) (w : Claim → Nat) (k : Claim) : Nat :=
  match k.status with
  | .reserved _ => if k.account < n then w k else 0
  | .committed _ => 0

/-- `w` of a claim committed to one of `requests`. -/
def Claim.committedIn (requests : List ReqIdx) (w : Claim → Nat) (k : Claim) : Nat :=
  match k.status with
  | .reserved _ => 0
  | .committed request => if request ∈ requests then w k else 0

theorem Claim.reservedBelow_succ (n : Nat) (w : Claim → Nat) (k : Claim) :
    Claim.reservedBelow (n + 1) w k = Claim.reservedBelow n w k + Claim.reservedOf n w k := by
  unfold Claim.reservedBelow Claim.reservedOf
  cases k.status with
  | committed _ => rfl
  | reserved _ =>
      rcases Nat.lt_trichotomy k.account n with h | h | h
      · simp [h, Nat.lt_succ_of_lt h, h.ne]
      · simp [h]
      · have h₁ : ¬ k.account < n + 1 := by omega
        have h₂ : ¬ k.account < n := by omega
        have h₃ : k.account ≠ n := by omega
        simp [h₁, h₂, h₃]

theorem Claim.committedIn_cons {request : ReqIdx} {requests : List ReqIdx} (w : Claim → Nat)
    (k : Claim) (h : request ∉ requests) :
    Claim.committedIn (request :: requests) w k =
      Claim.committedIn [request] w k + Claim.committedIn requests w k := by
  unfold Claim.committedIn
  cases k.status with
  | reserved _ => rfl
  | committed r =>
      by_cases hr : r = request
      · subst hr
        simp [h]
      · simp [hr]

namespace Ledger

variable {l : Ledger} {account e : Nat} {request : ReqIdx} {loose : Link} {E : Nat → List Nat}
  {C : ReqIdx → List Nat} {w : Claim → Nat}

/-- A figure added up over the claims at some indexes. -/
def total (l : Ledger) (w : Claim → Nat) (is : List Nat) : Nat :=
  (is.map fun i => (l.reservationAt i).elim 0 fun r => w r.toClaim).sum

@[simp] theorem total_nil : l.total w [] = 0 := rfl

theorem total_cons {i : Nat} {is : List Nat} {r : Reservation} (hr : l.reservationAt i = some r) :
    l.total w (i :: is) = w r.toClaim + l.total w is := by
  simp [total, hr]

theorem sum_book_add (f g : Claim → Nat) :
    l.book.sum (fun k => f k + g k) = l.book.sum f + l.book.sum g :=
  Slab.sum_add _ _

theorem sum_book_congr {f g : Claim → Nat} (h : ∀ claim k, l.book.claims claim = some k → f k = g k) :
    l.book.sum f = l.book.sum g :=
  Slab.sum_congr fun _ _ hr => h _ _ (book_claims hr)

theorem sum_book_le {f g : Claim → Nat} (h : ∀ k, f k ≤ g k) : l.book.sum f ≤ l.book.sum g :=
  Slab.sum_le_sum fun _ _ _ => h _

theorem total_expiry (h : l.links.Threads none E C) (ha : (l.links.ends account).isSome) :
    l.total w (E account) = l.book.sum (Claim.reservedOf account w) := by
  have hmem : ∀ i, i ∈ E account ↔ ∃ r, l.reservations.valueAt i = some r ∧
      (r.account = account ∧ r.isCommitted = false) := by
    intro i
    rw [h.expiry_mem account i]
    constructor
    · rintro ⟨-, k, e, hk, hka, hs⟩
      obtain ⟨r, hr, rfl⟩ := Option.map_eq_some_iff.mp hk
      exact ⟨r, hr, hka, Reservation.isCommitted_eq_false.mpr ⟨e, hs⟩⟩
    · rintro ⟨r, hr, hra, hc⟩
      obtain ⟨e, hs⟩ := Reservation.isCommitted_eq_false.mp hc
      exact ⟨by simp, r.toClaim, e, by simp [links, reservationAt, hr], hra, hs⟩
  have hsum := Slab.sum_of_members (fun r => w r.toClaim) (h.expiry account ha).nodup hmem
  refine hsum.trans (Slab.sum_congr fun _ r _ => ?_)
  obtain ⟨a, amount, owner, links⟩ := r
  by_cases hra : a = account <;> cases links <;> simp [Claim.reservedOf, Reservation.toClaim,
    ClaimLinks.status, Reservation.isCommitted, hra]

theorem total_list (h : l.links.Threads none E C) :
    l.total w (C request) = l.book.sum (Claim.committedIn [request] w) := by
  have hmem : ∀ i, i ∈ C request ↔ ∃ r, l.reservations.valueAt i = some r ∧
      r.committedTo = some request := by
    intro i
    rw [h.list_mem request i]
    constructor
    · rintro ⟨-, k, hk, hs⟩
      obtain ⟨r, hr, rfl⟩ := Option.map_eq_some_iff.mp hk
      exact ⟨r, hr, Reservation.committedTo_eq_some.mpr hs⟩
    · rintro ⟨r, hr, hc⟩
      exact ⟨by simp, r.toClaim, by simp [links, reservationAt, hr],
        Reservation.committedTo_eq_some.mp hc⟩
  have hsum := Slab.sum_of_members (fun r => w r.toClaim) (h.list_nodup request) hmem
  refine hsum.trans (Slab.sum_congr fun _ r _ => ?_)
  obtain ⟨a, amount, owner, links⟩ := r
  cases links <;> simp [Claim.committedIn, Reservation.toClaim, ClaimLinks.status,
    Reservation.committedTo]

/-- The chain of an account or request with `w = 1` is its length. -/
theorem total_one {is : List Nat} (h : ∀ i ∈ is, (l.reservationAt i).isSome) :
    l.total (fun _ => 1) is = is.length := by
  induction is with
  | nil => rfl
  | cons i is ih =>
      obtain ⟨r, hr⟩ := Option.isSome_iff_exists.mp (h i (by simp))
      rw [total_cons hr, ih fun j hj => h j (List.mem_cons_of_mem _ hj), List.length_cons]
      omega

-- ============================================================================
-- Walking one chain
-- ============================================================================

theorem walkExpiryChain_ok (fuel : Nat) {is : List Nat} {p : Link} (last : Option Nat)
    (sum chained : Nat) (hseg : Intrusive.Segment l.links.node p is none)
    (hmem : ∀ i ∈ is, ∃ r e prev next, l.reservationAt i = some r ∧ r.account = account ∧
      r.links = .reserved e prev next ∧ l.links.expiry i = e)
    (hsorted : is.Pairwise fun i j => l.links.expiry i ≤ l.links.expiry j)
    (hlast : ∀ t, last = some t → ∀ i ∈ is, t ≤ l.links.expiry i)
    (hsum : sum + l.total Claim.amount is ≤ u64Max)
    (hchained : chained + is.length ≤ l.reservations.capacity) (hfuel : is.length ≤ fuel) :
    l.walkExpiryChain account fuel is.head? p last sum chained =
      .ok (is.getLast?.or p, sum + l.total Claim.amount is, chained + is.length) := by
  induction fuel generalizing is p last sum chained with
  | zero =>
      obtain rfl : is = [] := List.eq_nil_of_length_eq_zero (by omega)
      simp [walkExpiryChain]
  | succ fuel ih =>
      cases is with
      | nil => simp [walkExpiryChain]
      | cons i is =>
          obtain ⟨r, e, prev, next, hr, hra, hlinks, hexp⟩ := hmem i (by simp)
          obtain ⟨hnode, hrest⟩ := hseg
          simp only [links, hr, Option.map_some, Reservation.neighbours, hlinks,
            Option.some.injEq, Prod.mk.injEq, Option.or_none] at hnode
          obtain ⟨rfl, rfl⟩ := hnode
          obtain ⟨hle, hsorted⟩ := List.pairwise_cons.mp hsorted
          have hlate : (last.any fun t => decide (e < t)) = false := by
            cases last with
            | none => rfl
            | some t =>
                have := hlast t rfl i (by simp)
                simp only [Option.any_some, decide_eq_false_iff_not]
                omega
          rw [total_cons hr] at hsum ⊢
          have hamount : r.toClaim.amount = r.amount := rfl
          rw [hamount] at hsum ⊢
          have hadd : checkedAdd sum r.amount = some (sum + r.amount) :=
            checkedAdd_eq_some.mpr ⟨by omega, rfl⟩
          have hroom : ¬ l.reservations.capacity < chained + 1 := by
            simp only [List.length_cons] at hchained
            omega
          simp only [List.head?_cons, walkExpiryChain, hr, hlinks, hra, ne_eq, not_true_eq_false,
            if_false, hlate, Bool.false_eq_true, hadd, hroom]
          rw [ih _ _ _ hrest (fun j hj => hmem j (List.mem_cons_of_mem _ hj)) hsorted
            (fun t ht j hj => by
              cases ht
              rw [← hexp]
              exact hle j hj)
            (by omega) (by simp only [List.length_cons] at hchained; omega) (by simpa using hfuel)]
          have hend : is.getLast?.or (some i) = (i :: is).getLast?.or prev := by
            rw [List.getLast?_cons]
            cases is.getLast? <;> rfl
          rw [hend]
          simp only [List.length_cons, Except.ok.injEq, Prod.mk.injEq, true_and]
          omega

theorem walkCommittedList_ok (fuel chained : Nat) {is : List Nat} {p : Link}
    (hseg : Intrusive.Segment l.links.node p is none)
    (hmem : ∀ i ∈ is, ∃ r prev next, l.reservationAt i = some r ∧
      r.links = .committed request prev next)
    (hchained : chained + is.length ≤ l.reservations.capacity) (hfuel : is.length ≤ fuel) :
    l.walkCommittedList request fuel is.head? p chained = .ok (chained + is.length) := by
  induction fuel generalizing is p chained with
  | zero =>
      obtain rfl : is = [] := List.eq_nil_of_length_eq_zero (by omega)
      simp [walkCommittedList]
  | succ fuel ih =>
      cases is with
      | nil => simp [walkCommittedList]
      | cons i is =>
          obtain ⟨r, prev, next, hr, hlinks⟩ := hmem i (by simp)
          obtain ⟨hnode, hrest⟩ := hseg
          simp only [links, hr, Option.map_some, Reservation.neighbours, hlinks,
            Option.some.injEq, Prod.mk.injEq, Option.or_none] at hnode
          obtain ⟨rfl, rfl⟩ := hnode
          simp only [List.length_cons] at hchained hfuel ⊢
          have hroom : ¬ l.reservations.capacity < chained + 1 := by omega
          simp only [List.head?_cons, walkCommittedList, hr, hlinks, ne_eq, not_true_eq_false,
            or_self, if_false, hroom]
          rw [ih _ hrest (fun j hj => hmem j (List.mem_cons_of_mem _ hj)) (by omega) (by omega)]
          congr 1
          omega

theorem walkCommittedTotal_ok (account fuel sum : Nat) {is : List Nat} {p : Link}
    (hseg : Intrusive.Segment l.links.node p is none)
    (hmem : ∀ i ∈ is, ∃ r prev next, l.reservationAt i = some r ∧
      r.links = .committed request prev next)
    (hsum : sum + l.total (fun k => if k.account = account then k.amount else 0) is ≤ u64Max)
    (hfuel : is.length ≤ fuel) :
    l.walkCommittedTotal account fuel is.head? sum =
      .ok (sum + l.total (fun k => if k.account = account then k.amount else 0) is) := by
  induction fuel generalizing is p sum with
  | zero =>
      obtain rfl : is = [] := List.eq_nil_of_length_eq_zero (by omega)
      simp [walkCommittedTotal]
  | succ fuel ih =>
      cases is with
      | nil => simp [walkCommittedTotal]
      | cons i is =>
          obtain ⟨r, prev, next, hr, hlinks⟩ := hmem i (by simp)
          obtain ⟨hnode, hrest⟩ := hseg
          simp only [links, hr, Option.map_some, Reservation.neighbours, hlinks,
            Option.some.injEq, Prod.mk.injEq, Option.or_none] at hnode
          obtain ⟨rfl, rfl⟩ := hnode
          rw [total_cons hr] at hsum ⊢
          have hfields : r.toClaim.account = r.account ∧ r.toClaim.amount = r.amount := ⟨rfl, rfl⟩
          rw [hfields.1, hfields.2] at hsum ⊢
          simp only [List.head?_cons, walkCommittedTotal, hr, Reservation.neighbours, hlinks]
          by_cases hra : r.account = account
          · simp only [hra, if_true] at hsum ⊢
            have hadd : checkedAdd sum r.amount = some (sum + r.amount) :=
              checkedAdd_eq_some.mpr ⟨by omega, rfl⟩
            simp only [hadd]
            rw [ih _ hrest (fun j hj => hmem j (List.mem_cons_of_mem _ hj)) (by omega)
              (by simpa using hfuel)]
            congr 1
            omega
          · simp only [hra, if_false] at hsum ⊢
            rw [ih _ hrest (fun j hj => hmem j (List.mem_cons_of_mem _ hj)) (by omega)
              (by simpa using hfuel)]
            congr 1
            omega

-- ============================================================================
-- Walking every chain
-- ============================================================================

theorem sum_le_capacity {f : Claim → Nat} (hf : ∀ k, f k ≤ 1) :
    l.book.sum f ≤ l.reservations.capacity :=
  (sum_book_le hf).trans Slab.count_le_capacity

/-- The expiry chains of the accounts from `n` on. -/
theorem Intact.checkExpiryChainsFrom_ok (h : l.Intact) (xs : List MirroredBalance) (n : Nat)
    (hxs : ∀ i, xs[i]? = l.accounts[n + i]?) :
    l.checkExpiryChainsFrom (xs.zipIdx n) (l.book.sum (Claim.reservedBelow n fun _ => 1)) =
      .ok (l.book.sum (Claim.reservedBelow (n + xs.length) fun _ => 1)) := by
  obtain ⟨E, C, ht⟩ := h.wired.threads
  induction xs generalizing n with
  | nil => simp [checkExpiryChainsFrom]
  | cons x xs ih =>
      have hx : l.account n = some x := by simpa [Ledger.account] using (hxs 0).symm
      have hends : (l.links.ends n).isSome := by rw [isSome_ends, hx]; rfl
      have hchain := ht.expiry n hends
      have hhead : x.expiryHead = (E n).head? := by
        rw [← hchain.head]
        simp [LinkView.chain, links, hx]
      have htail : x.expiryTail = (E n).getLast? := by
        rw [← hchain.tail]
        simp [LinkView.chain, links, hx]
      have hsome : ∀ i ∈ E n, (l.reservationAt i).isSome := by
        intro i hi
        obtain ⟨_, _, _, _, hi, -⟩ := reservationAt_of_mem ht hi
        simp [hi]
      have hcount : l.book.sum (Claim.reservedBelow n fun _ => 1) + (E n).length =
          l.book.sum (Claim.reservedBelow (n + 1) fun _ => 1) := by
        rw [← total_one hsome, total_expiry ht hends, ← sum_book_add]
        exact sum_book_congr fun _ k _ => (Claim.reservedBelow_succ n _ k).symm
      have hcap : l.book.sum (Claim.reservedBelow (n + 1) fun _ => 1) ≤ l.reservations.capacity := by
        refine sum_le_capacity fun k => ?_
        unfold Claim.reservedBelow
        cases k.status with
        | committed _ => simp
        | reserved _ =>
            simp only
            split <;> omega
      have hamount : l.total Claim.amount (E n) = x.reserved := by
        rw [total_expiry ht hends]
        exact (h.balanced.reserved n _ (book_totals hx)).symm
      have hbound : x.reserved + x.committed ≤ u64Max := h.balanced.bounded n _ (book_totals hx)
      have hlen := expiry_length ht (by rw [hx]; rfl)
      have hwalk := walkExpiryChain_ok (l.reservations.capacity + 1) (p := none) none 0
        (l.book.sum (Claim.reservedBelow n fun _ => 1))
        hchain.segment (fun i hi => reservationAt_of_mem ht hi) (ht.sorted n) (by simp)
        (by omega) (by omega) (by omega)
      rw [List.zipIdx_cons]
      simp only [checkExpiryChainsFrom, hhead, hwalk, Option.or_none, htail, ne_eq,
        not_true_eq_false, if_false, hamount, Nat.zero_add, hcount]
      rw [ih (n + 1) fun i => by rw [show n + 1 + i = n + (i + 1) by omega, ← hxs (i + 1)]; rfl]
      rw [List.length_cons, show n + 1 + xs.length = n + (xs.length + 1) by omega]

/-- The committed list of a live request, as the checker walks it. -/
theorem Intact.list_ok (h : l.Intact) {record : Request} (hrecord : l.request request = some record) :
    ∃ is, record.committedHead = is.head? ∧ Intrusive.Segment l.links.node none is none ∧
      (∀ i ∈ is, ∃ r prev next, l.reservationAt i = some r ∧ r.links = .committed request prev next) ∧
      is.length ≤ l.reservations.capacity ∧
      ∀ w, l.total w is = l.book.sum (Claim.committedIn [request] w) := by
  obtain ⟨E, C, ht⟩ := h.wired.threads
  obtain ⟨hhead, hseg⟩ := ht.list request record.committedHead (by simp [links, hrecord])
  have hmem : ∀ i ∈ C request, ∃ r prev next, l.reservationAt i = some r ∧
      r.links = .committed request prev next := by
    intro i hi
    obtain ⟨k, hk, hs⟩ := ht.claim_of_mem_list hi
    obtain ⟨⟨a, amount, owner, links⟩, hr, rfl⟩ := Option.map_eq_some_iff.mp hk
    cases links with
    | reserved => cases hs
    | committed r prev next =>
        simp only [Reservation.toClaim, ClaimLinks.status, ClaimStatus.committed.injEq] at hs
        subst hs
        exact ⟨_, prev, next, hr, rfl⟩
  refine ⟨C request, hhead, hseg, hmem, ?_, fun w => total_list ht⟩
  refine length_le_capacity (ht.list_nodup request) fun i hi => ?_
  obtain ⟨_, _, _, hi, -⟩ := hmem i hi
  simp [hi]

theorem Intact.checkCommittedListsFrom_ok (h : l.Intact) (todo : List (ReqIdx × Request))
    (chained : Nat) (hlive : ∀ x ∈ todo, l.request x.1 = some x.2)
    (hnodup : (todo.map Prod.fst).Nodup)
    (hroom : chained + l.book.sum (Claim.committedIn (todo.map Prod.fst) fun _ => 1) ≤
      l.reservations.capacity) :
    l.checkCommittedListsFrom todo chained =
      .ok (chained + l.book.sum (Claim.committedIn (todo.map Prod.fst) fun _ => 1)) := by
  induction todo generalizing chained with
  | nil =>
      have hzero : l.book.sum (Claim.committedIn [] fun _ => 1) = 0 := by
        apply book_sum_eq_zero
        intro _ k _
        unfold Claim.committedIn
        cases k.status <;> simp
      simp [checkCommittedListsFrom, hzero]
  | cons x todo ih =>
      obtain ⟨request, record⟩ := x
      obtain ⟨hnot, hnodup⟩ := List.nodup_cons.mp hnodup
      have hrecord : l.request request = some record := hlive (request, record) (by simp)
      obtain ⟨is, hhead, hseg, hmem, hlen, htotal⟩ := h.list_ok hrecord
      have hsplit : l.book.sum (Claim.committedIn ((request, record) :: todo |>.map Prod.fst)
          fun _ => 1) = is.length + l.book.sum (Claim.committedIn (todo.map Prod.fst) fun _ => 1) := by
        rw [← total_one (l := l) fun i hi => by
          obtain ⟨_, _, _, hi, -⟩ := hmem i hi
          simp [hi], htotal, ← sum_book_add]
        exact sum_book_congr fun _ k _ => Claim.committedIn_cons _ k hnot
      rw [hsplit] at hroom ⊢
      have hwalk := walkCommittedList_ok (l.reservations.capacity + 1) chained hseg
        hmem (by omega) (by omega)
      simp only [checkCommittedListsFrom, hhead, hwalk]
      rw [ih (chained + is.length) (fun y hy => hlive y (List.mem_cons_of_mem _ hy)) hnodup
        (by omega)]
      congr 1
      omega

theorem Intact.committedTotalFrom_ok (account : Nat) (h : l.Intact) (todo : List (ReqIdx × Request)) (sum : Nat)
    (hlive : ∀ x ∈ todo, l.request x.1 = some x.2) (hnodup : (todo.map Prod.fst).Nodup)
    (hfits : sum + l.book.sum (Claim.committedIn (todo.map Prod.fst)
      fun k => if k.account = account then k.amount else 0) ≤ u64Max) :
    l.committedTotalFrom account todo sum =
      .ok (sum + l.book.sum (Claim.committedIn (todo.map Prod.fst)
        fun k => if k.account = account then k.amount else 0)) := by
  induction todo generalizing sum with
  | nil =>
      have hzero : l.book.sum (Claim.committedIn []
          fun k => if k.account = account then k.amount else 0) = 0 := by
        apply book_sum_eq_zero
        intro _ k _
        unfold Claim.committedIn
        cases k.status <;> simp
      simp [committedTotalFrom, hzero]
  | cons x todo ih =>
      obtain ⟨request, record⟩ := x
      obtain ⟨hnot, hnodup⟩ := List.nodup_cons.mp hnodup
      have hrecord : l.request request = some record := hlive (request, record) (by simp)
      obtain ⟨is, hhead, hseg, hmem, hlen, htotal⟩ := h.list_ok hrecord
      have hsplit : l.book.sum (Claim.committedIn ((request, record) :: todo |>.map Prod.fst)
          fun k => if k.account = account then k.amount else 0) =
          l.total (fun k => if k.account = account then k.amount else 0) is +
            l.book.sum (Claim.committedIn (todo.map Prod.fst)
              fun k => if k.account = account then k.amount else 0) := by
        rw [htotal, ← sum_book_add]
        exact sum_book_congr fun _ k _ => Claim.committedIn_cons _ k hnot
      rw [hsplit] at hfits ⊢
      have hwalk := walkCommittedTotal_ok account (l.reservations.capacity + 1) sum
        hseg hmem (by omega) (by omega)
      simp only [committedTotalFrom, hhead, hwalk]
      rw [ih _ (fun y hy => hlive y (List.mem_cons_of_mem _ hy)) hnodup (by omega)]
      congr 1
      omega

-- ============================================================================
-- The whole check
-- ============================================================================

theorem Intact.checkHeldBy_ok (h : l.Intact) {owner : ResOwner} {held : Option ResIdx}
    (howner : l.ownerClaim owner = some held) : l.checkHeldBy owner held = .ok () := by
  cases held with
  | none => rfl
  | some claim =>
      rw [← ownerClaim_book] at howner
      obtain ⟨k, hk, hko⟩ := h.balanced.holder owner claim howner
      obtain ⟨r, hr, rfl⟩ := reservation_of_claims hk
      simp only [checkHeldBy, hr, ne_eq, ite_not]
      exact if_pos hko

theorem Intact.checkOwners_ok (h : l.Intact) : l.checkOwners = .ok () := by
  have hclaims : (checkAll l.reservations.iter fun x => l.checkOwnerOf x.1 x.2.owner) = .ok () := by
    rw [checkAll_eq_ok]
    rintro ⟨claim, r⟩ hr
    have hheld := h.balanced.held claim _ (book_claims (Slab.mem_iter.mp hr))
    rw [ownerClaim_book] at hheld
    simp [checkOwnerOf, show l.ownerClaim r.owner = some (some claim) from hheld]
  have hquotes : (checkAll l.quotes.iter fun x => l.checkHeldBy (.quote x.1) x.2.claim) =
      .ok () := by
    rw [checkAll_eq_ok]
    rintro ⟨handle, quote⟩ hq
    have hget : l.quote handle = some quote := Slab.mem_iter.mp hq
    exact h.checkHeldBy_ok (by simp [ownerClaim, hget])
  have hrequests : (checkAll l.requests.iter fun x => l.checkHeldBy (.request x.1) x.2.claim) =
      .ok () := by
    rw [checkAll_eq_ok]
    rintro ⟨handle, request⟩ hq
    have hget : l.request handle = some request := Slab.mem_iter.mp hq
    exact h.checkHeldBy_ok (by simp [ownerClaim, hget])
  simp only [checkOwners, hclaims, hquotes, hrequests]

/-- The checker accepts an intact ledger. -/
theorem Intact.checkStructuralInvariants_ok (h : l.Intact) :
    l.checkStructuralInvariants = .ok () := by
  have hlive : ∀ x ∈ l.requests.iter, l.request x.1 = some x.2 := fun x hx => Slab.mem_iter.mp hx
  have hnodup : (l.requests.iter.map Prod.fst).Nodup := Slab.nodup_iter
  have hexpiry : l.checkExpiryChains =
      .ok (l.book.sum (Claim.reservedBelow l.accounts.length fun _ => 1)) := by
    have hrun := h.checkExpiryChainsFrom_ok l.accounts 0 fun i => by rw [Nat.zero_add]
    rw [Nat.zero_add] at hrun
    have hzero : l.book.sum (Claim.reservedBelow 0 fun _ => 1) = 0 := by
      apply book_sum_eq_zero
      intro _ k _
      unfold Claim.reservedBelow
      cases k.status <;> simp
    rwa [hzero] at hrun
  have hone : ∀ k, Claim.committedIn (l.requests.iter.map Prod.fst) (fun _ => 1) k ≤ 1 := by
    intro k
    unfold Claim.committedIn
    cases k.status with
    | reserved _ => simp
    | committed _ =>
        simp only
        split <;> omega
  have hlists : l.checkCommittedLists = .ok
      (l.book.sum (Claim.committedIn (l.requests.iter.map Prod.fst) fun _ => 1)) := by
    have hcap := sum_le_capacity (l := l) hone
    have hrun := h.checkCommittedListsFrom_ok l.requests.iter 0 hlive hnodup (by omega)
    rwa [Nat.zero_add] at hrun
  have hin : ∀ claim k r, l.book.claims claim = some k → k.status = .committed r →
      r ∈ l.requests.iter.map Prod.fst := by
    intro claim k r hk hs
    have hlisted := h.balanced.listed claim k r hk hs
    simp only [book, Option.isSome_map] at hlisted
    obtain ⟨record, hrecord⟩ := Option.isSome_iff_exists.mp hlisted
    exact List.mem_map.mpr ⟨(r, record), Slab.mem_iter.mpr hrecord, rfl⟩
  have htotals : l.checkCommittedTotals = .ok () := by
    unfold checkCommittedTotals
    rw [checkAll_eq_ok]
    rintro ⟨entry, account⟩ hentry
    have haccount : l.account account = some entry :=
      List.mk_mem_zipIdx_iff_getElem?.mp hentry
    have hsum : l.book.sum (Claim.committedIn (l.requests.iter.map Prod.fst)
        fun k => if k.account = account then k.amount else 0) = entry.committed := by
      rw [show entry.committed = _ from h.balanced.committed account _ (book_totals haccount)]
      refine sum_book_congr fun claim k hk => ?_
      unfold Claim.committedIn Claim.committedBy
      cases hs : k.status with
      | reserved _ => rfl
      | committed r => simp [hin claim k r hk hs]
    have hbound : entry.reserved + entry.committed ≤ u64Max :=
      h.balanced.bounded account _ (book_totals haccount)
    have hrun := h.committedTotalFrom_ok account l.requests.iter 0 hlive hnodup
      (by omega)
    simp only [hrun, hsum, Nat.zero_add, ne_eq, not_true_eq_false, if_false]
  have hcount : l.book.sum (Claim.reservedBelow l.accounts.length fun _ => 1) +
      l.book.sum (Claim.committedIn (l.requests.iter.map Prod.fst) fun _ => 1) =
        l.reservations.len := by
    rw [← sum_book_add, Slab.len, h.wired.reservations.live]
    refine sum_book_congr (g := fun _ => 1) fun claim k hk => ?_
    unfold Claim.reservedBelow Claim.committedIn
    cases hs : k.status with
    | reserved _ =>
        have hknown := h.balanced.known claim k hk
        simp only [book, Option.isSome_map, account, Option.isSome_iff_exists,
          List.getElem?_eq_some_iff] at hknown
        obtain ⟨_, hlt, -⟩ := hknown
        simp [hlt]
    | committed r => simp [hin claim k r hk hs]
  unfold checkStructuralInvariants
  simp only [hexpiry, hlists, htotals, hcount, ne_eq, not_true_eq_false, if_false,
    h.checkOwners_ok]

end Ledger

end RfqSettlement
