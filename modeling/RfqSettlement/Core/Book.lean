/-
  RfqSettlement.Core.Book

  The abstract layer over the ledger.  A `Book` says what the ledger is for: who
  has which totals, which claims stand, and what requests and quotes they back,
  with every intrusive link forgotten.  `Ledger.book` reads it off.

  The primitive writes of the ledger are described here, once each, by what they
  do to the book.
-/

import RfqSettlement.Core.LedgerCheck
import RfqSettlement.Core.SlabValid
import Mathlib.Logic.Function.Basic

namespace RfqSettlement

-- ============================================================================
-- Claims, without their links
-- ============================================================================

/-- Whether a claim stands for a while or is in flight with a request. -/
inductive ClaimStatus where
  | reserved (expiresAt : Nat)
  | committed (request : ReqIdx)
deriving DecidableEq, Repr

/-- A reservation without its links. -/
structure Claim where
  account : Nat
  amount : Nat
  owner : ResOwner
  status : ClaimStatus
deriving DecidableEq, Repr

def ClaimLinks.status : ClaimLinks → ClaimStatus
  | .reserved e _ _ => .reserved e
  | .committed request _ _ => .committed request

def Reservation.toClaim (r : Reservation) : Claim :=
  ⟨r.account, r.amount, r.owner, r.links.status⟩

/-- What a claim adds to `account`'s reserved total. -/
def Claim.reservedBy (account : Nat) (k : Claim) : Nat :=
  match k.status with
  | .reserved _ => if k.account = account then k.amount else 0
  | .committed _ => 0

/-- What a claim adds to `account`'s committed total. -/
def Claim.committedBy (account : Nat) (k : Claim) : Nat :=
  match k.status with
  | .reserved _ => 0
  | .committed _ => if k.account = account then k.amount else 0

/-- What a claim adds to `account`'s part of `request`'s committed list. -/
def Claim.committedOn (request : ReqIdx) (account : Nat) (k : Claim) : Nat :=
  if k.status = .committed request ∧ k.account = account then k.amount else 0

/-- The claim as it stands once committed. -/
def Claim.committedAs (k : Claim) (request : ReqIdx) (keep : Nat) : Claim :=
  { k with amount := keep, status := .committed request }

@[simp] theorem Reservation.toClaim_setNext (r : Reservation) (n : Link) :
    (r.setNext n).toClaim = r.toClaim := by
  obtain ⟨_, _, _, links⟩ := r
  cases links <;> rfl

@[simp] theorem Reservation.toClaim_setPrev (r : Reservation) (p : Link) :
    (r.setPrev p).toClaim = r.toClaim := by
  obtain ⟨_, _, _, links⟩ := r
  cases links <;> rfl

@[simp] theorem Reservation.neighbours_setNext (r : Reservation) (n : Link) :
    (r.setNext n).neighbours = (r.neighbours.1, n) := by
  obtain ⟨_, _, _, links⟩ := r
  cases links <;> rfl

@[simp] theorem Reservation.neighbours_setPrev (r : Reservation) (p : Link) :
    (r.setPrev p).neighbours = (p, r.neighbours.2) := by
  obtain ⟨_, _, _, links⟩ := r
  cases links <;> rfl

theorem Reservation.isCommitted_eq_false {r : Reservation} :
    r.isCommitted = false ↔ ∃ e, r.toClaim.status = .reserved e := by
  obtain ⟨_, _, _, links⟩ := r
  cases links <;> simp [isCommitted, toClaim, ClaimLinks.status]

theorem Reservation.committedTo_eq_some {r : Reservation} {request : ReqIdx} :
    r.committedTo = some request ↔ r.toClaim.status = .committed request := by
  obtain ⟨_, _, _, links⟩ := r
  cases links <;> simp [committedTo, toClaim, ClaimLinks.status]

theorem Reservation.committedTo_eq_none {r : Reservation} :
    r.committedTo = none ↔ ∃ e, r.toClaim.status = .reserved e := by
  obtain ⟨_, _, _, links⟩ := r
  cases links <;> simp [committedTo, toClaim, ClaimLinks.status]

theorem Reservation.isExpiredAt_eq {r : Reservation} {e : Nat} (now : Nat)
    (h : r.toClaim.status = .reserved e) : r.isExpiredAt now = some (decide (e ≤ now)) := by
  obtain ⟨_, _, _, links⟩ := r
  cases links <;> simp_all [isExpiredAt, toClaim, ClaimLinks.status]

-- ============================================================================
-- The book
-- ============================================================================

/-- One account's totals. -/
structure Totals where
  free : Nat
  reserved : Nat
  committed : Nat
deriving DecidableEq, Repr

def MirroredBalance.totals (m : MirroredBalance) : Totals :=
  ⟨m.free, m.reserved, m.committed⟩

/-- A request without the head of its committed list. -/
def Request.unlinked (r : Request) : Request := { r with committedHead := none }

/-- What the ledger records, with every intrusive link forgotten.  `sum` totals
    any figure over the standing claims. -/
@[ext] structure Book where
  totals : Nat → Option Totals
  claims : ResIdx → Option Claim
  sum : (Claim → Nat) → Nat
  requests : ReqIdx → Option Request
  quotes : QuoteIdx → Option Quote

def Ledger.book (l : Ledger) : Book where
  totals a := (l.account a).map MirroredBalance.totals
  claims h := (l.reservation h).map Reservation.toClaim
  sum f := l.reservations.sum fun r => f r.toClaim
  requests r := (l.request r).map Request.unlinked
  quotes q := l.quote q

namespace Book

/-- The claim an owner holds; `none` where the owner does not resolve. -/
def ownerClaim (b : Book) (owner : ResOwner) : Option (Option ResIdx) :=
  match owner with
  | .quote quote => (b.quotes quote).map Quote.claim
  | .request request => (b.requests request).map Request.claim

def modifyTotals (b : Book) (account : Nat) (f : Totals → Totals) : Book :=
  { b with totals := Function.update b.totals account ((b.totals account).map f) }

def modifyQuote (b : Book) (quote : QuoteIdx) (f : Quote → Quote) : Book :=
  { b with quotes := Function.update b.quotes quote ((b.quotes quote).map f) }

def modifyRequest (b : Book) (request : ReqIdx) (f : Request → Request) : Book :=
  { b with requests := Function.update b.requests request ((b.requests request).map f) }

def setQuote (b : Book) (quote : QuoteIdx) (record : Option Quote) : Book :=
  { b with quotes := Function.update b.quotes quote record }

def setRequest (b : Book) (request : ReqIdx) (record : Option Request) : Book :=
  { b with requests := Function.update b.requests request record }

def dropClaim (b : Book) (claim : ResIdx) (k : Claim) : Book :=
  { b with claims := Function.update b.claims claim none, sum := fun f => b.sum f - f k }

def putClaim (b : Book) (claim : ResIdx) (k : Claim) : Book :=
  { b with claims := Function.update b.claims claim (some k), sum := fun f => b.sum f + f k }

def setOwnerClaim (b : Book) (owner : ResOwner) (claim : Option ResIdx) : Book :=
  match owner with
  | .quote quote => b.modifyQuote quote fun q => q.setClaim claim
  | .request request => b.modifyRequest request fun r => r.setClaim claim

/-- A reserved claim goes away: its amount leaves `reserved` and its owner lets
    go of it. -/
def free (b : Book) (claim : ResIdx) (k : Claim) : Book :=
  ((b.modifyTotals k.account fun t => { t with reserved := t.reserved - k.amount }).setOwnerClaim
    k.owner none).dropClaim claim k

/-- A reserved claim is cut down to `keep` and moves to `request`'s list. -/
def commit (b : Book) (claim : ResIdx) (k : Claim) (request : ReqIdx) (keep : Nat) : Book :=
  ((b.modifyTotals k.account fun t =>
    { t with reserved := t.reserved - k.amount, committed := t.committed + keep }).dropClaim
      claim k).putClaim claim (k.committedAs request keep)

/-- A committed claim goes away. -/
def discharge (b : Book) (claim : ResIdx) (k : Claim) : Book :=
  ((b.modifyTotals k.account fun t => { t with committed := t.committed - k.amount }).setOwnerClaim
    k.owner none).dropClaim claim k

/-- A new reserved claim. -/
def reserve (b : Book) (claim : ResIdx) (k : Claim) : Book :=
  ((b.modifyTotals k.account fun t => { t with reserved := t.reserved + k.amount }).setOwnerClaim
    k.owner (some claim)).putClaim claim k

variable {b : Book} {owner owner' : ResOwner} {c : Option ResIdx} {claim : ResIdx} {k : Claim}
  {account : Nat}

section Reading

variable {f : Totals → Totals}

@[simp] theorem ownerClaim_modifyTotals :
    (b.modifyTotals account f).ownerClaim owner = b.ownerClaim owner := by
  cases owner <;> rfl

@[simp] theorem ownerClaim_dropClaim : (b.dropClaim claim k).ownerClaim owner = b.ownerClaim owner := by
  cases owner <;> rfl

@[simp] theorem ownerClaim_putClaim : (b.putClaim claim k).ownerClaim owner = b.ownerClaim owner := by
  cases owner <;> rfl

theorem ownerClaim_setOwnerClaim :
    (b.setOwnerClaim owner c).ownerClaim owner' =
      if owner' = owner then (b.ownerClaim owner).map fun _ => c else b.ownerClaim owner' := by
  cases owner with
  | quote q =>
      cases owner' with
      | quote q' =>
          simp only [setOwnerClaim, modifyQuote, ownerClaim, Function.update_apply,
            ResOwner.quote.injEq]
          split <;> simp [Function.comp_def, Quote.setClaim]
      | request r' => simp [setOwnerClaim, modifyQuote, ownerClaim]
  | request r =>
      cases owner' with
      | quote q' => simp [setOwnerClaim, modifyRequest, ownerClaim]
      | request r' =>
          simp only [setOwnerClaim, modifyRequest, ownerClaim, Function.update_apply,
            ResOwner.request.injEq]
          split <;> simp [Function.comp_def, Request.setClaim]

@[simp] theorem totals_setOwnerClaim : (b.setOwnerClaim owner c).totals = b.totals := by
  cases owner <;> rfl

@[simp] theorem claims_setOwnerClaim : (b.setOwnerClaim owner c).claims = b.claims := by
  cases owner <;> rfl

@[simp] theorem sum_setOwnerClaim : (b.setOwnerClaim owner c).sum = b.sum := by
  cases owner <;> rfl

theorem isSome_requests_setOwnerClaim (r : ReqIdx) :
    ((b.setOwnerClaim owner c).requests r).isSome = (b.requests r).isSome := by
  cases owner with
  | quote q => rfl
  | request r' =>
      simp only [setOwnerClaim, modifyRequest, Function.update_apply]
      split
      next h => simp [h]
      next => rfl

end Reading

end Book

-- ============================================================================
-- What the primitive writes do
-- ============================================================================

namespace Ledger

variable {l : Ledger}

section Accounts

variable {account amount : Nat} {f : MirroredBalance → MirroredBalance}

theorem account_modifyAccount (a : Nat) :
    (l.modifyAccount account f).account a =
      if a = account then (l.account a).map f else l.account a := by
  simp only [modifyAccount, Ledger.account, List.getElem?_modify]
  by_cases h : a = account
  · simp [h]
  · simp [h, Ne.symm h]

/-- An assignment that writes no total leaves the book alone. -/
theorem book_modifyAccount_of_totals (hf : ∀ m, (f m).totals = m.totals) :
    (l.modifyAccount account f).book = l.book := by
  ext1
  · funext a
    simp only [book, account_modifyAccount]
    split <;> simp [Function.comp_def, hf]
  all_goals rfl

/-- An assignment that writes totals only. -/
theorem book_modifyAccount (g : Totals → Totals) (hf : ∀ m, (f m).totals = g m.totals) :
    (l.modifyAccount account f).book = l.book.modifyTotals account g := by
  ext1
  · funext a
    simp only [book, account_modifyAccount, Book.modifyTotals, Function.update_apply]
    split
    next h => simp [h, Function.comp_def, hf]
    next => rfl
  all_goals rfl

end Accounts

section Asserts

variable {holds : Bool}

@[simp] theorem book_debugAssert : (l.debugAssert holds).book = l.book := rfl
@[simp] theorem reservations_debugAssert : (l.debugAssert holds).reservations = l.reservations :=
  rfl
@[simp] theorem requests_debugAssert : (l.debugAssert holds).requests = l.requests := rfl
@[simp] theorem quotes_debugAssert : (l.debugAssert holds).quotes = l.quotes := rfl
@[simp] theorem sound_debugAssert : (l.debugAssert holds).sound = (l.sound && holds) := rfl

theorem debugAssert_of_true (h : holds = true) : l.debugAssert holds = l := by
  simp [debugAssert, h]

end Asserts

section Reservations

variable {index : Nat} {f : Reservation → Reservation}

theorem reservationAt_modifyReservationAt (i : Nat) :
    (l.modifyReservationAt index f).reservationAt i =
      if i = index then (l.reservationAt i).map f else l.reservationAt i :=
  Slab.valueAt_modifyAt

/-- Rewriting links leaves the book alone. -/
theorem book_modifyReservationAt (hf : ∀ r, (f r).toClaim = r.toClaim) :
    (l.modifyReservationAt index f).book = l.book := by
  ext1
  case claims =>
    funext h
    simp only [book, modifyReservationAt, reservation, Slab.get_modifyAt]
    split <;> simp [Function.comp_def, hf]
  case sum =>
    funext g
    exact Slab.sum_modifyAt_of_eq _ fun r => by rw [hf]
  all_goals rfl

end Reservations

section Owners

variable {quote : QuoteIdx} {request : ReqIdx} {owner : ResOwner} {claim : Option ResIdx}

theorem book_modifyQuote (f : Quote → Quote) :
    (l.modifyQuote quote f).book = l.book.modifyQuote quote f := by
  ext1
  case quotes =>
    funext q
    simp only [book, Book.modifyQuote, Ledger.modifyQuote, Ledger.quote, Slab.get_modify,
      Function.update_apply]
  all_goals rfl

theorem book_modifyRequest {f : Request → Request} (hf : ∀ r, (f r).unlinked = f r.unlinked) :
    (l.modifyRequest request f).book = l.book.modifyRequest request f := by
  ext1
  case requests =>
    funext r
    simp only [book, Book.modifyRequest, Ledger.modifyRequest, Ledger.request, Slab.get_modify,
      Function.update_apply]
    split
    next => simp [Function.comp_def, hf]
    next => rfl
  all_goals rfl

/-- The head of the committed list is not in the book. -/
theorem book_setCommittedHead {head : Link} :
    (l.modifyRequest request fun r => { r with committedHead := head }).book = l.book := by
  ext1
  case requests =>
    funext r
    simp only [book, Ledger.modifyRequest, Ledger.request, Slab.get_modify]
    split
    next h =>
      rw [h, Option.map_map]
      rfl
    next => rfl
  all_goals rfl

theorem ownerClaim_book : l.book.ownerClaim owner = l.ownerClaim owner := by
  cases owner with
  | quote q => rfl
  | request r =>
      simp only [Book.ownerClaim, book, Ledger.ownerClaim, Option.map_map]
      rfl

theorem book_setOwnerClaim :
    (l.setOwnerClaim owner claim).book = l.book.setOwnerClaim owner claim := by
  cases owner with
  | quote q =>
      simp only [setOwnerClaim, book_debugAssert]
      exact book_modifyQuote fun q => q.setClaim claim
  | request r =>
      simp only [setOwnerClaim, book_debugAssert]
      exact book_modifyRequest (f := fun r => r.setClaim claim) fun _ => rfl

@[simp] theorem reservations_setOwnerClaim (owner : ResOwner) (claim : Option ResIdx) :
    (l.setOwnerClaim owner claim).reservations = l.reservations := by
  cases owner <;> rfl

theorem sound_setOwnerClaim :
    (l.setOwnerClaim owner claim).sound = (l.sound && (l.ownerClaim owner).isSome) := by
  cases owner <;> simp [setOwnerClaim, Ledger.ownerClaim] <;> rfl

end Owners

section Removal

variable {claim : ResIdx} {r : Reservation}

theorem book_remove (h : l.reservation claim = some r) :
    ({ l with reservations := (l.reservations.remove claim).2 }).book =
      l.book.dropClaim claim r.toClaim := by
  have hsome : (l.reservations.get claim).isSome := by
    rw [show l.reservations.get claim = some r from h]
    rfl
  ext1
  case claims =>
    funext c
    simp only [book, reservation, Slab.get_remove hsome, Book.dropClaim, Function.update_apply]
    split <;> rfl
  case sum =>
    funext f
    have := Slab.sum_remove (fun r => f r.toClaim) h
    simp only [book, Book.dropClaim]
    omega
  all_goals rfl

end Removal

end Ledger

end RfqSettlement
