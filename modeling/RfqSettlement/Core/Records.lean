/-
  RfqSettlement.Core.Records

  The records the ledger stores: mirrored balances (`core/src/account.rs`),
  contracts (`core/src/contract.rs`), requests and legs
  (`core/src/request.rs`), quotes (`core/src/quote.rs`) and reservations
  (`core/src/reservation.rs`).

  A fixed-size leg array with its count is the list of its real legs here: no
  path of the source reads a slot past `n_legs`.
-/

import RfqSettlement.Core.Slab

namespace RfqSettlement

/-- A generation-carrying handle to a request. -/
abbrev ReqIdx := Handle .request
/-- A generation-carrying handle to a quote. -/
abbrev QuoteIdx := Handle .quote
/-- A generation-carrying handle to a reservation. -/
abbrev ResIdx := Handle .reservation

-- ============================================================================
-- Accounts
-- ============================================================================

/-- One account: the mirrored balance, the two stored claim totals, and the ends
    of its expiry-ordered reservation chain. -/
structure MirroredBalance where
  free : Nat := 0
  reserved : Nat := 0
  committed : Nat := 0
  expiryHead : Link := none
  expiryTail : Link := none
deriving DecidableEq, Repr

/-- What a new claim may draw on, `free − reserved − committed`. -/
def MirroredBalance.available (m : MirroredBalance) : Nat :=
  saturatingSub (saturatingSub m.free m.reserved) m.committed

-- ============================================================================
-- Contracts
-- ============================================================================

/-- What the oracle has told the venue. -/
inductive OracleStatus where
  | silent
  | inProgress
  | final (outcome : Outcome)
deriving DecidableEq, Repr

/-- The engine's contract state. -/
inductive ContractState where
  | unresolved
  | resolved (outcome : Outcome)
deriving DecidableEq, Repr

structure Contract where
  eventDate : Nat
  state : ContractState
  oracleStatus : OracleStatus
deriving DecidableEq, Repr

/-- A status read as a rank. -/
def OracleStatus.rank : OracleStatus → Nat
  | .silent => 0
  | .inProgress => 1
  | .final _ => 2

namespace Contract

/-- A contract settling at `eventDate`, with nothing reported about it yet. -/
def new (eventDate : Nat) : Contract :=
  ⟨eventDate, .unresolved, .silent⟩

/-- A report is admissible only if it moves strictly forwards. -/
def mayReport (c : Contract) (next : OracleStatus) : Bool :=
  decide (c.oracleStatus.rank < next.rank)

def setOracleStatus (c : Contract) (status : OracleStatus) : Contract :=
  match status with
  | .final outcome => { c with oracleStatus := status, state := .resolved outcome }
  | _ => { c with oracleStatus := status }

/-- Whether the stall exit is open: the oracle is still silent, strictly past the
    grace period.  A grace period past the end of time never elapses. -/
def stallExitOpen (c : Contract) (now stallGrace : Nat) : Bool :=
  match c.oracleStatus with
  | .silent =>
    match checkedAdd c.eventDate stallGrace with
    | some stallExit => decide (stallExit < now)
    | none => false
  | _ => false

/-- The outcome, derived at the point of use; `none` is `NotYet`. -/
def outcome (c : Contract) (now stallGrace : Nat) : Option Outcome :=
  match c.state with
  | .resolved o => some o
  | .unresolved => if c.stallExitOpen now stallGrace then some .void else none

end Contract

/-- Who a settled escrow pays: `none` is `Void`, which refunds each side. -/
def payoutGoesToRequester (outcome : Outcome) (requesterSide : Side) : Option Bool :=
  match outcome, requesterSide with
  | .yes, .yes => some true
  | .no, .no => some true
  | .yes, .no => some false
  | .no, .yes => some false
  | .void, _ => none

-- ============================================================================
-- Requests
-- ============================================================================

/-- The settlement nonce: a request slot and its generation. -/
structure Nonce where
  request : Nat
  generation : Nat
deriving DecidableEq, Repr

def Nonce.of (request : ReqIdx) : Nonce :=
  ⟨request.index, request.generation⟩

theorem Nonce.of_injective {r r' : ReqIdx} (h : Nonce.of r = Nonce.of r') : r = r' := by
  cases r
  cases r'
  simpa [Nonce.of] using h

/-- Stored request state.  `Expired` is derived, not stored. -/
inductive RequestState where
  | opened
  | settling (nonce : Nonce) (deadline : Nat)
  | escrowed
  | rejected
  | settlementFailed
deriving DecidableEq, Repr

/-- The nonce in flight, if this request is settling. -/
def RequestState.nonce : RequestState → Option Nonce
  | .settling nonce _ => some nonce
  | _ => none

structure Leg where
  contract : Nat
  side : Side
  size : Nat
  limit : Nat
  /-- Head of this leg's intrusive quote chain. -/
  quotesHead : Link
  quoteCount : Nat
  /-- The last selection published for this leg: a cache, never an input to a fill. -/
  published : Option Nat
deriving DecidableEq, Repr

/-- A leg with no quotes yet. -/
def Leg.new (contract : Nat) (side : Side) (quantity limit : Nat) : Leg :=
  ⟨contract, side, quantity, limit, none, 0, none⟩

structure Request where
  requester : Nat
  deadline : Nat
  state : RequestState
  legs : List Leg
  /-- The requester's own claim, `none` once released. -/
  claim : Option ResIdx
  /-- Head of this request's committed list. -/
  committedHead : Link
deriving DecidableEq, Repr

namespace Request

/-- A request open until `deadline`. -/
def new (requester deadline : Nat) (legs : List Leg) : Request :=
  ⟨requester, deadline, .opened, legs, none, none⟩

def nLegs (r : Request) : Nat := r.legs.length

def leg (r : Request) (leg : Nat) : Option Leg := r.legs[leg]?

/-- Assignment through `leg_mut`. -/
def modifyLeg (r : Request) (leg : Nat) (f : Leg → Leg) : Request :=
  { r with legs := r.legs.modify leg f }

def setClaim (r : Request) (claim : Option ResIdx) : Request := { r with claim }

def setState (r : Request) (state : RequestState) : Request := { r with state }

end Request

-- ============================================================================
-- Quotes
-- ============================================================================

inductive QuoteState where
  | active
  | consumed
  | released
deriving DecidableEq, Repr

structure Quote where
  maker : Nat
  request : ReqIdx
  leg : Nat
  price : Nat
  size : Nat
  expiresAt : Nat
  /-- Arrival order, the tiebreak at selection. -/
  arrival : Nat
  state : QuoteState
  /-- Next quote on the same leg's chain. -/
  nextOnLeg : Link
  /-- The maker's claim, `none` once released. -/
  claim : Option ResIdx
deriving DecidableEq, Repr

namespace Quote

/-- A standing quote. -/
def new (maker : Nat) (request : ReqIdx) (leg price size expiresAt arrival : Nat) : Quote :=
  ⟨maker, request, leg, price, size, expiresAt, arrival, .active, none, none⟩

/-- Liveness, half-open: a quote expiring at exactly `now` is dead. -/
def isLiveAt (q : Quote) (now : Nat) : Bool :=
  decide (q.state = .active ∧ now < q.expiresAt)

def setClaim (q : Quote) (claim : Option ResIdx) : Quote := { q with claim }

def setState (q : Quote) (state : QuoteState) : Quote := { q with state }

end Quote

/-- The quote that currently wins a leg, and at what price. -/
structure Selection where
  quote : QuoteIdx
  price : Nat
deriving DecidableEq, Repr

-- ============================================================================
-- Reservations
-- ============================================================================

/-- What a claim is attached to. -/
inductive ResOwner where
  | quote (quote : QuoteIdx)
  | request (request : ReqIdx)
deriving DecidableEq, Repr

/-- Which chain a claim is on, and the links threading it.  A committed claim has
    no expiry at all. -/
inductive ClaimLinks where
  | reserved (expiresAt : Nat) (prev next : Link)
  | committed (request : ReqIdx) (prev next : Link)
deriving DecidableEq, Repr

/-- One claim on one account's balance. -/
structure Reservation where
  account : Nat
  amount : Nat
  owner : ResOwner
  links : ClaimLinks
deriving DecidableEq, Repr

namespace Reservation

/-- A fresh claim, linked nowhere yet. -/
def reserved (account amount : Nat) (owner : ResOwner) (expiresAt : Nat) : Reservation :=
  ⟨account, amount, owner, .reserved expiresAt none none⟩

def isCommitted (r : Reservation) : Bool :=
  match r.links with
  | .committed .. => true
  | .reserved .. => false

/-- The request whose committed list holds this claim. -/
def committedTo (r : Reservation) : Option ReqIdx :=
  match r.links with
  | .committed request _ _ => some request
  | .reserved .. => none

/-- When a reserved claim expires; a committed claim has no expiry. -/
def expiresAt (r : Reservation) : Option Nat :=
  match r.links with
  | .reserved e _ _ => some e
  | .committed .. => none

/-- Whether a reserved claim is dead at `now`, half-open. -/
def isExpiredAt (r : Reservation) (now : Nat) : Option Bool :=
  match r.links with
  | .reserved e _ _ => some (decide (e ≤ now))
  | .committed .. => none

def setAmount (r : Reservation) (amount : Nat) : Reservation := { r with amount }

def setLinks (r : Reservation) (links : ClaimLinks) : Reservation := { r with links }

/-- The chain neighbours, whichever chain this claim is on. -/
def neighbours (r : Reservation) : Link × Link :=
  match r.links with
  | .reserved _ prev next => (prev, next)
  | .committed _ prev next => (prev, next)

def setPrev (r : Reservation) (link : Link) : Reservation :=
  match r.links with
  | .reserved e _ next => { r with links := .reserved e link next }
  | .committed request _ next => { r with links := .committed request link next }

def setNext (r : Reservation) (link : Link) : Reservation :=
  match r.links with
  | .reserved e prev _ => { r with links := .reserved e prev link }
  | .committed request prev _ => { r with links := .committed request prev link }

end Reservation

end RfqSettlement
