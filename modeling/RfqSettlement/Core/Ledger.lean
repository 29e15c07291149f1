/-
  RfqSettlement.Core.Ledger

  The claim ledger (`core/src/ledger.rs`): the balance mirror, the three slabs,
  the operations that move a claim, the chain plumbing under them, and the
  commit phase.

  An operation that returns a `Result` in the source returns the pair of its
  answer and the ledger it leaves behind, so that what a refusal leaves is
  something to prove and not a consequence of the type.

  `sound` is the one field the source does not have.  It starts true and turns
  false for good where a `debug_assert!` of the source fails, where a total is
  clamped by a saturating operation, or where a walk along a chain does not end
  within the capacity of the slab (where the source would not return).
-/

import RfqSettlement.Core.Records

namespace RfqSettlement

/-- A rejected ledger operation. -/
inductive LedgerError where
  | unknownAccount
  | slabExhausted (slab : SlabKind)
  | staleReservation
  | reservationCommitted
  | staleOwner
  | ownerAlreadyClaimed
  | ownerStillClaimed
  | staleRequest
  | insufficientFree
  | amountOverflow
  | unknownContract
  | contractIdentityChanged
deriving DecidableEq, Repr

/-- The engine's claim ledger. -/
structure Ledger where
  accounts : List MirroredBalance
  contracts : List (Option Contract)
  reservations : Slab .reservation Reservation
  requests : Slab .request Request
  quotes : Slab .quote Quote
  sound : Bool
deriving DecidableEq, Repr

namespace Ledger

/-- Preallocate everything to configured capacity. -/
def new (config : Config) : Ledger where
  accounts := List.replicate config.maxAccounts {}
  contracts := List.replicate config.maxContracts none
  reservations := Slab.withCapacity .reservation Reservation config.maxReservations
  requests := Slab.withCapacity .request Request config.maxRequests
  quotes := Slab.withCapacity .quote Quote config.maxQuotes
  sound := true

-- ============================================================================
-- Reads
-- ============================================================================

def account (l : Ledger) (account : Nat) : Option MirroredBalance := l.accounts[account]?

def contract (l : Ledger) (contract : Nat) : Option Contract := (l.contracts[contract]?).join

def request (l : Ledger) (request : ReqIdx) : Option Request := l.requests.get request

def quote (l : Ledger) (quote : QuoteIdx) : Option Quote := l.quotes.get quote

def reservation (l : Ledger) (claim : ResIdx) : Option Reservation := l.reservations.get claim

def reservationAt (l : Ledger) (index : Nat) : Option Reservation := l.reservations.valueAt index

def quoteHandleAt (l : Ledger) (index : Nat) : Option QuoteIdx := l.quotes.handleAt index

def requestHandleAt (l : Ledger) (index : Nat) : Option ReqIdx := l.requests.handleAt index

/-- The claim an owner holds; `none` where the owner does not resolve. -/
def ownerClaim (l : Ledger) (owner : ResOwner) : Option (Option ResIdx) :=
  match owner with
  | .quote quote => (l.quote quote).map Quote.claim
  | .request request => (l.request request).map Request.claim

-- ============================================================================
-- Writes
-- ============================================================================

/-- Record a debug assertion, or the exactness of a saturating operation. -/
def debugAssert (l : Ledger) (holds : Bool) : Ledger := { l with sound := l.sound && holds }

def modifyAccount (l : Ledger) (account : Nat) (f : MirroredBalance → MirroredBalance) : Ledger :=
  { l with accounts := l.accounts.modify account f }

def modifyReservationAt (l : Ledger) (index : Nat) (f : Reservation → Reservation) : Ledger :=
  { l with reservations := l.reservations.modifyAt index f }

def modifyQuote (l : Ledger) (quote : QuoteIdx) (f : Quote → Quote) : Ledger :=
  { l with quotes := l.quotes.modify quote f }

def modifyRequest (l : Ledger) (request : ReqIdx) (f : Request → Request) : Ledger :=
  { l with requests := l.requests.modify request f }

/-- `reserved` lowered by `amount`, clamped at zero. -/
def lowerReserved (l : Ledger) (account amount : Nat) : Ledger :=
  (l.modifyAccount account fun e => { e with reserved := saturatingSub e.reserved amount }).debugAssert
    ((l.account account).all fun e => amount ≤ e.reserved)

/-- `committed` lowered by `amount`, clamped at zero. -/
def lowerCommitted (l : Ledger) (account amount : Nat) : Ledger :=
  (l.modifyAccount account fun e => { e with committed := saturatingSub e.committed amount }).debugAssert
    ((l.account account).all fun e => amount ≤ e.committed)

/-- `committed` raised by `amount`, clamped at `u64::MAX`. -/
def raiseCommitted (l : Ledger) (account amount : Nat) : Ledger :=
  (l.modifyAccount account fun e => { e with committed := saturatingAdd e.committed amount }).debugAssert
    ((l.account account).all fun e => e.committed + amount ≤ u64Max)

/-- Free a claim's slot. -/
def removeReservation (l : Ledger) (claim : ResIdx) : Ledger :=
  ({ l with reservations := (l.reservations.remove claim).2 }).debugAssert
    (l.reservations.remove claim).1.isSome

def setOwnerClaim (l : Ledger) (owner : ResOwner) (claim : Option ResIdx) : Ledger :=
  match owner with
  | .quote quote =>
    (l.modifyQuote quote fun q => q.setClaim claim).debugAssert (l.quote quote).isSome
  | .request request =>
    (l.modifyRequest request fun r => r.setClaim claim).debugAssert (l.request request).isSome

-- ============================================================================
-- Chain plumbing
-- ============================================================================

/-- Walk an expiry chain back from `cursor` to the first entry that does not
    expire later than `expiresAt`.  The flag is false where the source's debug
    assertions fail, and where the chain is longer than the slab. -/
def insertionPoint (l : Ledger) (expiresAt : Nat) : Nat → Link → Option Nat × Bool
  | _, none => (none, true)
  | 0, some _ => (none, false)
  | fuel + 1, some candidate =>
    match l.reservationAt candidate with
    | none => (none, false)
    | some reservation =>
      match reservation.links with
      | .committed .. => (none, false)
      | .reserved theirs prev _ =>
        if theirs ≤ expiresAt then (some candidate, true)
        else l.insertionPoint expiresAt fuel prev

/-- Splice `index` in immediately after `after`, fixing the tail if `after` was it. -/
def spliceAfter (l : Ledger) (account index after : Nat) : Ledger :=
  let next : Link := ((l.reservationAt after).map fun r => r.neighbours.2).getD none
  let l := l.modifyReservationAt after fun r => r.setNext (some index)
  let l := l.modifyReservationAt index fun r => (r.setPrev (some after)).setNext next
  match next with
  | some next => l.modifyReservationAt next fun r => r.setPrev (some index)
  | none => l.modifyAccount account fun e => { e with expiryTail := some index }

/-- Splice `index` in at the head, fixing the tail if the chain was empty. -/
def spliceAtHead (l : Ledger) (account index : Nat) : Ledger :=
  let head : Link := ((l.account account).map fun e => e.expiryHead).getD none
  let l := l.modifyReservationAt index fun r => (r.setPrev none).setNext head
  let l := match head with
    | some head => l.modifyReservationAt head fun r => r.setPrev (some index)
    | none => l.modifyAccount account fun e => { e with expiryTail := some index }
  l.modifyAccount account fun e => { e with expiryHead := some index }

/-- Insert into the account's expiry chain, walking back from the tail.  Equal
    expiries stay in order of arrival. -/
def linkIntoExpiryChain (l : Ledger) (account index expiresAt : Nat) : Ledger :=
  match l.account account with
  | none => l.debugAssert false
  | some entry =>
    let (after, ok) := l.insertionPoint expiresAt l.reservations.capacity entry.expiryTail
    let l := l.debugAssert ok
    match after with
    | some after => l.spliceAfter account index after
    | none => l.spliceAtHead account index

/-- Unlink from the account's expiry chain, fixing both endpoints. -/
def unlinkFromChain (l : Ledger) (account index : Nat) : Ledger :=
  match (l.reservationAt index).map Reservation.neighbours with
  | none => l.debugAssert false
  | some (prev, next) =>
    let l := match prev with
      | some prevIndex => l.modifyReservationAt prevIndex fun r => r.setNext next
      | none => l.modifyAccount account fun e => { e with expiryHead := next }
    let l := match next with
      | some nextIndex => l.modifyReservationAt nextIndex fun r => r.setPrev prev
      | none => l.modifyAccount account fun e => { e with expiryTail := prev }
    l.modifyReservationAt index fun r => (r.setPrev none).setNext none

/-- Link into the request's committed list, at the head. -/
def linkIntoCommittedList (l : Ledger) (request : ReqIdx) (index : Nat) : Ledger :=
  let head : Link := ((l.request request).map fun r => r.committedHead).getD none
  let l := l.modifyReservationAt index fun r => r.setLinks (.committed request none head)
  let l := match head with
    | some headIndex => l.modifyReservationAt headIndex fun r => r.setPrev (some index)
    | none => l
  l.modifyRequest request fun r => { r with committedHead := some index }

-- ============================================================================
-- The balance mirror, contracts and owners
-- ============================================================================

/-- The write path for a chain event: the mirror is a projection. -/
def applyMirrorUpdate (l : Ledger) (account free : Nat) : Except LedgerError Unit × Ledger :=
  match l.account account with
  | none => (.error .unknownAccount, l)
  | some _ => (.ok (), l.modifyAccount account fun e => { e with free })

/-- Record a contract.  Re-registration with the same event date is a no-op. -/
def registerContract (l : Ledger) (contract eventDate : Nat) : Except LedgerError Unit × Ledger :=
  match l.contracts[contract]? with
  | none => (.error .unknownContract, l)
  | some (some existing) =>
    if existing.eventDate = eventDate then (.ok (), l)
    else (.error .contractIdentityChanged, l)
  | some none => (.ok (), { l with contracts := l.contracts.set contract (some (Contract.new eventDate)) })

/-- Record what the oracle says.  Monotonicity is checked by the caller. -/
def setOracleStatus (l : Ledger) (contract : Nat) (status : OracleStatus) : Ledger :=
  { l with contracts := l.contracts.modify contract fun entry =>
      entry.map fun c => c.setOracleStatus status }

/-- Free a quote slot.  Refused while capital is claimed against it. -/
def closeQuote (l : Ledger) (quote : QuoteIdx) : Except LedgerError Unit × Ledger :=
  match l.quote quote with
  | none => (.error .staleOwner, l)
  | some record =>
    if record.claim.isSome then (.error .ownerStillClaimed, l)
    else (.ok (), { l with quotes := (l.quotes.remove quote).2 })

/-- Free a request slot.  Refused while it holds a claim or a committed list. -/
def closeRequest (l : Ledger) (request : ReqIdx) : Except LedgerError Unit × Ledger :=
  match l.request request with
  | none => (.error .staleRequest, l)
  | some record =>
    if record.claim.isSome || record.committedHead.isSome then (.error .ownerStillClaimed, l)
    else (.ok (), { l with requests := (l.requests.remove request).2 })

-- ============================================================================
-- Reserving
-- ============================================================================

/-- Claim coverage, checked before the claim exists.  Returns what `reserved`
    becomes if the claim is admitted. -/
def checkReservable (l : Ledger) (account amount : Nat) : Except LedgerError Nat :=
  match l.account account with
  | none => .error .unknownAccount
  | some entry =>
    match (checkedAdd entry.reserved entry.committed).bind fun total => checkedAdd total amount with
    | none => .error .amountOverflow
    | some claimed =>
      if entry.free < claimed then .error .insufficientFree
      else
        match checkedAdd entry.reserved amount with
        | none => .error .amountOverflow
        | some reserved => .ok reserved

/-- The infallible tail every reservation path shares. -/
def linkClaim (l : Ledger) (account : Nat) (claim : ResIdx) (expiresAt : Nat) (owner : ResOwner)
    (reserved : Nat) : Ledger :=
  let l := l.linkIntoExpiryChain account claim.index expiresAt
  let l := l.modifyAccount account fun e => { e with reserved }
  l.setOwnerClaim owner (some claim)

/-- Claim `amount` of `account`'s balance until `expiresAt`, on behalf of `owner`. -/
def reserve (l : Ledger) (account amount expiresAt : Nat) (owner : ResOwner) :
    Except LedgerError ResIdx × Ledger :=
  match l.ownerClaim owner with
  | none => (.error .staleOwner, l)
  | some (some _) => (.error .ownerAlreadyClaimed, l)
  | some none =>
    match l.checkReservable account amount with
    | .error e => (.error e, l)
    | .ok reserved =>
      match l.reservations.insert (Reservation.reserved account amount owner expiresAt) with
      | none => (.error (.slabExhausted .reservation), l)
      | some (claim, reservations) =>
        (.ok claim, ({ l with reservations }).linkClaim account claim expiresAt owner reserved)

/-- Open a quote and reserve against it in one command. -/
def openQuoteReserving (l : Ledger) (record : Quote) (amount : Nat) :
    Except LedgerError (QuoteIdx × ResIdx) × Ledger :=
  match l.checkReservable record.maker amount with
  | .error e => (.error e, l)
  | .ok reserved =>
    if !l.quotes.hasRoom then (.error (.slabExhausted .quote), l)
    else if !l.reservations.hasRoom then (.error (.slabExhausted .reservation), l)
    else
      match l.quotes.insert record with
      | none => (.error (.slabExhausted .quote), l)
      | some (quote, quotes) =>
        let l := { l with quotes }
        let owner := ResOwner.quote quote
        match l.reservations.insert
            (Reservation.reserved record.maker amount owner record.expiresAt) with
        | none => (.error (.slabExhausted .reservation), l)
        | some (claim, reservations) =>
          (.ok (quote, claim), ({ l with reservations }).linkClaim record.maker claim
            record.expiresAt owner reserved)

/-- Open a request and reserve the requester's claim against it in one command. -/
def openRequestReserving (l : Ledger) (record : Request) (amount : Nat) :
    Except LedgerError (ReqIdx × ResIdx) × Ledger :=
  match l.checkReservable record.requester amount with
  | .error e => (.error e, l)
  | .ok reserved =>
    if !l.requests.hasRoom then (.error (.slabExhausted .request), l)
    else if !l.reservations.hasRoom then (.error (.slabExhausted .reservation), l)
    else
      match l.requests.insert record with
      | none => (.error (.slabExhausted .request), l)
      | some (request, requests) =>
        let l := { l with requests }
        let owner := ResOwner.request request
        match l.reservations.insert
            (Reservation.reserved record.requester amount owner record.deadline) with
        | none => (.error (.slabExhausted .reservation), l)
        | some (claim, reservations) =>
          (.ok (request, claim), ({ l with reservations }).linkClaim record.requester claim
            record.deadline owner reserved)

-- ============================================================================
-- Releasing and committing
-- ============================================================================

/-- Release a named claim, returning the amount freed. -/
def release (l : Ledger) (claim : ResIdx) : Except LedgerError Nat × Ledger :=
  match l.reservation claim with
  | none => (.error .staleReservation, l)
  | some reservation =>
    if reservation.isCommitted then (.error .reservationCommitted, l)
    else
      match l.account reservation.account with
      | none => (.error .unknownAccount, l)
      | some entry =>
        match checkedSub entry.reserved reservation.amount with
        | none => (.error .amountOverflow, l)
        | some reserved =>
          let l := l.unlinkFromChain reservation.account claim.index
          let l := l.modifyAccount reservation.account fun e => { e with reserved }
          let l := l.setOwnerClaim reservation.owner none
          (.ok reservation.amount, l.removeReservation claim)

/-- Move a claim from `reserved` to `committed` on `request`'s list. -/
def commit (l : Ledger) (claim : ResIdx) (request : ReqIdx) : Except LedgerError Unit × Ledger :=
  match l.reservation claim with
  | none => (.error .staleReservation, l)
  | some reservation =>
    if reservation.isCommitted then (.error .reservationCommitted, l)
    else if (l.request request).isNone then (.error .staleRequest, l)
    else
      match l.account reservation.account with
      | none => (.error .unknownAccount, l)
      | some entry =>
        match checkedSub entry.reserved reservation.amount with
        | none => (.error .amountOverflow, l)
        | some reserved =>
          match checkedAdd entry.committed reservation.amount with
          | none => (.error .amountOverflow, l)
          | some committed =>
            let l := l.unlinkFromChain reservation.account claim.index
            let l := l.linkIntoCommittedList request claim.index
            (.ok (), l.modifyAccount reservation.account fun e => { e with reserved, committed })

/-- Reclaim one expired claim at the head of its account's chain. -/
def reclaim (l : Ledger) (account : Nat) (claim : ResIdx) (reservation : Reservation) : Ledger :=
  let l := l.unlinkFromChain account claim.index
  let l := l.lowerReserved account reservation.amount
  let l := l.setOwnerClaim reservation.owner none
  l.removeReservation claim

/-- The walk of `release_expired`.  Every turn frees a slot, so it ends within
    the capacity of the slab. -/
def releaseExpiredFrom (l : Ledger) (account now : Nat) : Nat → Link → Nat → Nat × Ledger
  | _, none, reclaimed => (reclaimed, l)
  | 0, some _, reclaimed => (reclaimed, l.debugAssert false)
  | fuel + 1, some index, reclaimed =>
    match l.reservationAt index with
    | none => (reclaimed, l.debugAssert false)
    | some reservation =>
      match reservation.isExpiredAt now with
      | none => (reclaimed, l.debugAssert false)
      | some false => (reclaimed, l)
      | some true =>
        match l.reservations.handleAt index with
        | none => (reclaimed, l.debugAssert false)
        | some handle =>
          (l.reclaim account handle reservation).releaseExpiredFrom account now fuel
            reservation.neighbours.2 (reclaimed + 1)

/-- Reclaim every expired claim on `account`, from the head of its expiry chain,
    stopping at the first live entry.  Returns how many were reclaimed. -/
def releaseExpired (l : Ledger) (account now : Nat) : Except LedgerError Nat × Ledger :=
  match l.account account with
  | none => (.error .unknownAccount, l)
  | some entry =>
    let (reclaimed, l) :=
      l.releaseExpiredFrom account now (l.reservations.capacity + 1) entry.expiryHead 0
    (.ok reclaimed, l)

-- ============================================================================
-- The commit phase
-- ============================================================================

namespace CommitPhase

/-- Release a reserved claim and free its slot. -/
def release (l : Ledger) (claim : ResIdx) : Ledger :=
  match l.reservation claim with
  | none => l.debugAssert false
  | some reservation =>
    if reservation.isCommitted then l.debugAssert false
    else l.reclaim reservation.account claim reservation

/-- Move `keep` of a reserved claim to `committed` on `request`'s list, returning
    the remainder to `free`. -/
def commit (l : Ledger) (claim : ResIdx) (request : ReqIdx) (keep : Nat) : Ledger :=
  match l.reservation claim with
  | none => l.debugAssert false
  | some reservation =>
    if reservation.isCommitted then l.debugAssert false
    else
      let l := l.debugAssert (decide (keep ≤ reservation.amount))
      let account := reservation.account
      let reservedBefore := reservation.amount
      let keep := min keep reservedBefore
      let l := l.unlinkFromChain account claim.index
      let l := l.modifyReservationAt claim.index fun r => r.setAmount keep
      let l := l.linkIntoCommittedList request claim.index
      (l.lowerReserved account reservedBefore).raiseCommitted account keep

/-- Free a quote slot whose claim has already been released. -/
def closeQuote (l : Ledger) (quote : QuoteIdx) : Ledger :=
  ({ l with quotes := (l.quotes.remove quote).2 }).debugAssert
    ((l.quote quote).any fun (q : Quote) => q.claim.isNone)

/-- Discharge one claim of a committed list. -/
def dischargeClaim (l : Ledger) (claim : ResIdx) (reservation : Reservation) : Ledger :=
  let l := l.lowerCommitted reservation.account reservation.amount
  let l := l.setOwnerClaim reservation.owner none
  { l with reservations := (l.reservations.remove claim).2 }

/-- The walk of `discharge_committed`, with the steps still allowed and what has
    been visited so far. -/
def dischargeFrom (l : Ledger) :
    Nat → Link → List (ResOwner × Nat) → List (ResOwner × Nat) × Ledger
  | _, none, visited => (visited, l)
  | 0, some _, visited => (visited, l.debugAssert false)
  | fuel + 1, some index, visited =>
    match l.reservationAt index with
    | none => (visited, l.debugAssert false)
    | some reservation =>
      match l.reservations.handleAt index with
      | none => (visited, l)
      | some handle =>
        dischargeFrom (dischargeClaim l handle reservation) fuel reservation.neighbours.2
          (visited ++ [(reservation.owner, reservation.amount)])

/-- Discharge every claim on a request's committed list, returning each claim's
    owner and amount in the order visited. -/
def dischargeCommitted (l : Ledger) (request : ReqIdx) : List (ResOwner × Nat) × Ledger :=
  let head : Link := ((l.request request).map fun r => r.committedHead).getD none
  let (visited, l) := dischargeFrom l (l.reservations.capacity + 1) head []
  (visited, l.modifyRequest request fun r => { r with committedHead := none, claim := none })

end CommitPhase

end Ledger

end RfqSettlement
