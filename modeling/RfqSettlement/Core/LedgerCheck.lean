/-
  RfqSettlement.Core.LedgerCheck

  The invariant checkers the ledger runs on itself
  (`core/src/ledger.rs`, `check_structural_invariants` and
  `check_claim_state_coherence`), with the violations they can name.
-/

import RfqSettlement.Core.Ledger

namespace RfqSettlement

/-- A broken structural invariant. -/
inductive InvariantViolation where
  | reservedTotalMismatch (account : Nat)
  | committedTotalMismatch (account : Nat)
  | expiryChainOutOfOrder (account : Nat)
  | chainLinksInconsistent (account : Nat)
  | committedClaimOnExpiryChain (account : Nat)
  | claimOnForeignChain (account : Nat)
  | reservedClaimOnCommittedList (request : ReqIdx)
  | claimOnForeignCommittedList (request : ReqIdx)
  | ownerDoesNotResolve (claim : ResIdx)
  | ownerDoesNotPointBack (claim : ResIdx)
  | claimNotOnExactlyOneChain
  | claimCoverageBroken (account : Nat)
  | reservedClaimOwnerNotStanding (claim : ResIdx)
  | committedClaimOwnerNotConsumed (claim : ResIdx)
  | committedClaimRequestNotSettling (claim : ResIdx)
deriving DecidableEq, Repr

/-- Run a check over a list, stopping at the first violation. -/
def checkAll {α ε : Type} (xs : List α) (check : α → Except ε Unit) : Except ε Unit :=
  match xs with
  | [] => .ok ()
  | x :: xs =>
    match check x with
    | .error e => .error e
    | .ok () => checkAll xs check

theorem checkAll_eq_ok {α ε : Type} {xs : List α} {check : α → Except ε Unit} :
    checkAll xs check = .ok () ↔ ∀ x ∈ xs, check x = .ok () := by
  induction xs with
  | nil => simp [checkAll]
  | cons x xs ih =>
      cases hx : check x with
      | error e => simp [checkAll, hx]
      | ok u => simp [checkAll, hx, ih]

namespace Ledger

-- ============================================================================
-- Chain sums and chain shape
-- ============================================================================

/-- One account's expiry chain, from `cursor`: every entry is a reserved claim of
    this account, points back at its predecessor and does not expire earlier.
    Returns the last link, the sum, and the running count of chained claims; the
    count stops the walk once it passes the capacity of the slab. -/
def walkExpiryChain (l : Ledger) (account : Nat) :
    Nat → Link → Link → Option Nat → Nat → Nat → Except InvariantViolation (Link × Nat × Nat)
  | _, none, previous, _, sum, chained => .ok (previous, sum, chained)
  | 0, some _, _, _, _, _ => .error (.chainLinksInconsistent account)
  | fuel + 1, some index, previous, lastExpiry, sum, chained =>
    match l.reservationAt index with
    | none => .error (.chainLinksInconsistent account)
    | some reservation =>
      match reservation.links with
      | .committed .. => .error (.committedClaimOnExpiryChain account)
      | .reserved expiresAt prev next =>
        if reservation.account ≠ account then .error (.claimOnForeignChain account)
        else if prev ≠ previous then .error (.chainLinksInconsistent account)
        else if lastExpiry.any fun last => decide (expiresAt < last) then
          .error (.expiryChainOutOfOrder account)
        else
          match checkedAdd sum reservation.amount with
          | none => .error (.reservedTotalMismatch account)
          | some sum =>
            if l.reservations.capacity < chained + 1 then .error (.chainLinksInconsistent account)
            else l.walkExpiryChain account fuel next (some index) (some expiresAt) sum (chained + 1)

/-- The expiry chains of a run of accounts, counted on from `chained`. -/
def checkExpiryChainsFrom (l : Ledger) :
    List (MirroredBalance × Nat) → Nat → Except InvariantViolation Nat
  | [], chained => .ok chained
  | (entry, account) :: rest, chained =>
    match l.walkExpiryChain account (l.reservations.capacity + 1) entry.expiryHead none none 0
        chained with
    | .error v => .error v
    | .ok (previous, sum, chained) =>
      if previous ≠ entry.expiryTail then .error (.chainLinksInconsistent account)
      else if sum ≠ entry.reserved then .error (.reservedTotalMismatch account)
      else l.checkExpiryChainsFrom rest chained

/-- Every expiry chain is well formed, ordered, and sums to the stored `reserved`. -/
def checkExpiryChains (l : Ledger) : Except InvariantViolation Nat :=
  l.checkExpiryChainsFrom l.accounts.zipIdx 0

/-- One request's committed list, from `cursor`. -/
def walkCommittedList (l : Ledger) (request : ReqIdx) :
    Nat → Link → Link → Nat → Except InvariantViolation Nat
  | _, none, _, chained => .ok chained
  | 0, some _, _, _ => .error (.claimOnForeignCommittedList request)
  | fuel + 1, some index, previous, chained =>
    match l.reservationAt index with
    | none => .error (.claimOnForeignCommittedList request)
    | some reservation =>
      match reservation.links with
      | .reserved .. => .error (.reservedClaimOnCommittedList request)
      | .committed ownerRequest prev next =>
        if ownerRequest ≠ request ∨ prev ≠ previous then
          .error (.claimOnForeignCommittedList request)
        else if l.reservations.capacity < chained + 1 then
          .error (.claimOnForeignCommittedList request)
        else l.walkCommittedList request fuel next (some index) (chained + 1)

/-- The committed lists of a run of requests, counted on from `chained`. -/
def checkCommittedListsFrom (l : Ledger) :
    List (ReqIdx × Request) → Nat → Except InvariantViolation Nat
  | [], chained => .ok chained
  | (handle, request) :: rest, chained =>
    match l.walkCommittedList handle (l.reservations.capacity + 1) request.committedHead none
        chained with
    | .error v => .error v
    | .ok chained => l.checkCommittedListsFrom rest chained

/-- Every committed list is well formed and holds only claims naming it. -/
def checkCommittedLists (l : Ledger) : Except InvariantViolation Nat :=
  l.checkCommittedListsFrom l.requests.iter 0

/-- One account's entries on one committed list, added to `sum`.  The source
    walks without a bound; a list longer than the slab is a violation here. -/
def walkCommittedTotal (l : Ledger) (account : Nat) :
    Nat → Link → Nat → Except InvariantViolation Nat
  | _, none, sum => .ok sum
  | 0, some _, _ => .error (.committedTotalMismatch account)
  | fuel + 1, some index, sum =>
    match l.reservationAt index with
    | none => .ok sum
    | some reservation =>
      if reservation.account = account then
        match checkedAdd sum reservation.amount with
        | none => .error (.committedTotalMismatch account)
        | some sum => l.walkCommittedTotal account fuel reservation.neighbours.2 sum
      else l.walkCommittedTotal account fuel reservation.neighbours.2 sum

/-- One account's entries across a run of requests, added to `sum`. -/
def committedTotalFrom (l : Ledger) (account : Nat) :
    List (ReqIdx × Request) → Nat → Except InvariantViolation Nat
  | [], sum => .ok sum
  | (_, request) :: rest, sum =>
    match l.walkCommittedTotal account (l.reservations.capacity + 1) request.committedHead sum with
    | .error v => .error v
    | .ok sum => l.committedTotalFrom account rest sum

/-- Every account's stored `committed` is its sum across the committed lists. -/
def checkCommittedTotals (l : Ledger) : Except InvariantViolation Unit :=
  checkAll l.accounts.zipIdx fun (entry, account) =>
    match l.committedTotalFrom account l.requests.iter 0 with
    | .error v => .error v
    | .ok sum => if sum ≠ entry.committed then .error (.committedTotalMismatch account) else .ok ()

-- ============================================================================
-- Owners
-- ============================================================================

/-- A claim's owner resolves and points back at it. -/
def checkOwnerOf (l : Ledger) (claim : ResIdx) (owner : ResOwner) :
    Except InvariantViolation Unit :=
  match l.ownerClaim owner with
  | none => .error (.ownerDoesNotResolve claim)
  | some held => if held ≠ some claim then .error (.ownerDoesNotPointBack claim) else .ok ()

/-- The claim an owner holds, if it holds one, is live and names it. -/
def checkHeldBy (l : Ledger) (owner : ResOwner) (held : Option ResIdx) :
    Except InvariantViolation Unit :=
  match held with
  | none => .ok ()
  | some claim =>
    match l.reservation claim with
    | none => .error (.ownerDoesNotPointBack claim)
    | some reservation =>
      if reservation.owner ≠ owner then .error (.ownerDoesNotPointBack claim) else .ok ()

/-- Every owner resolves and points back, read from the claim's end and from the
    owner's end. -/
def checkOwners (l : Ledger) : Except InvariantViolation Unit :=
  match checkAll l.reservations.iter fun x => l.checkOwnerOf x.1 x.2.owner with
  | .error v => .error v
  | .ok () =>
    match checkAll l.quotes.iter fun x => l.checkHeldBy (.quote x.1) x.2.claim with
    | .error v => .error v
    | .ok () => checkAll l.requests.iter fun x => l.checkHeldBy (.request x.1) x.2.claim

/-- The half that holds after every mutation: chain sums, chain shape, and the
    owner link in both directions. -/
def checkStructuralInvariants (l : Ledger) : Except InvariantViolation Unit :=
  match l.checkExpiryChains with
  | .error v => .error v
  | .ok reserved =>
    match l.checkCommittedLists with
    | .error v => .error v
    | .ok committed =>
      match l.checkCommittedTotals with
      | .error v => .error v
      | .ok () =>
        if reserved + committed ≠ l.reservations.len then .error .claimNotOnExactlyOneChain
        else l.checkOwners

-- ============================================================================
-- Coherence of claims and their owners' states
-- ============================================================================

/-- A committed claim hangs off a request that has left `Open`. -/
def requireSettling (l : Ledger) (request : ReqIdx) (claim : ResIdx) :
    Except InvariantViolation Unit :=
  match l.request request with
  | none => .error (.ownerDoesNotResolve claim)
  | some record =>
    match record.state with
    | .opened => .error (.committedClaimRequestNotSettling claim)
    | _ => .ok ()

/-- One claim's owner is in the state the claim's own state calls for. -/
def checkClaimState (l : Ledger) (claim : ResIdx) (reservation : Reservation) :
    Except InvariantViolation Unit :=
  match reservation.committedTo, reservation.owner with
  | none, .quote quote =>
    match l.quote quote with
    | none => .error (.ownerDoesNotResolve claim)
    | some record =>
      if record.state = .active then .ok () else .error (.reservedClaimOwnerNotStanding claim)
  | none, .request request =>
    match l.request request with
    | none => .error (.ownerDoesNotResolve claim)
    | some record =>
      if record.state = .opened then .ok () else .error (.reservedClaimOwnerNotStanding claim)
  | some list, .quote quote =>
    match l.quote quote with
    | none => .error (.ownerDoesNotResolve claim)
    | some record =>
      if record.state ≠ .consumed then .error (.committedClaimOwnerNotConsumed claim)
      else if record.request ≠ list then .error (.claimOnForeignCommittedList list)
      else l.requireSettling list claim
  | some list, .request request =>
    if request ≠ list then .error (.claimOnForeignCommittedList list)
    else l.requireSettling list claim

/-- The half that holds after every command. -/
def checkClaimStateCoherence (l : Ledger) : Except InvariantViolation Unit :=
  checkAll l.reservations.iter fun x => l.checkClaimState x.1 x.2

end Ledger

end RfqSettlement
