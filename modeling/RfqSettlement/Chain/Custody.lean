/-
  RfqSettlement.Chain.Custody

  The custody ledger and the transactions it includes.

  A bundle's `n_legs` is the length of its legs; a length over `MAX_LEGS` stands
  for an `n_legs` its storage cannot hold.  Operations that read custody's clock
  take the instant they sampled, and a settle-entry hook is the list of ledger
  operations it performs when it fires.  Two fields are not the source's: `exact`
  falls when a balance, `withdrawn` or a notional would saturate, and `payouts`
  records each escrow paid and what was credited for it.
-/

import RfqSettlement.Chain.Log

namespace RfqSettlement

-- ============================================================================
-- Bundles
-- ============================================================================

/-- One leg of a bundle. -/
structure BundleLeg where
  contract : Nat
  side : Side
  size : Nat
  maker : Nat
  fillPrice : Nat
  quoteExpiry : Nat
deriving DecidableEq, Repr

def BundleLeg.requesterContribution (leg : BundleLeg) : Option Nat :=
  Size.requesterContribution leg.size leg.fillPrice

def BundleLeg.makerContribution (leg : BundleLeg) : Option Nat :=
  Size.makerContribution leg.size leg.fillPrice

/-- An atomic multi-leg settlement transaction. -/
structure Bundle where
  nonce : Nonce
  requester : Nat
  legs : List BundleLeg
deriving DecidableEq, Repr

-- ============================================================================
-- Escrows
-- ============================================================================

/-- Whether an escrow still holds money. -/
inductive EscrowState where
  | locked
  | settled
deriving DecidableEq, Repr

/-- One leg's worth of locked capital. -/
structure Escrow where
  contract : Nat
  side : Side
  size : Nat
  requester : Nat
  maker : Nat
  requesterContribution : Nat
  makerContribution : Nat
  state : EscrowState
deriving DecidableEq, Repr

namespace Escrow

/-- A freshly locked escrow. -/
def lock (contract : Nat) (side : Side) (size requester maker requesterContribution
    makerContribution : Nat) : Escrow :=
  ⟨contract, side, size, requester, maker, requesterContribution, makerContribution, .locked⟩

def notional (e : Escrow) : Nat := saturatingAdd e.requesterContribution e.makerContribution

def isLocked (e : Escrow) : Bool := decide (e.state = .locked)

def markSettled (e : Escrow) : Escrow := { e with state := .settled }

/-- Who a payout under `outcome` credits, and with how much. -/
def credits (e : Escrow) (outcome : Outcome) : List (Nat × Nat) :=
  match payoutGoesToRequester outcome e.side with
  | some true => [(e.requester, e.notional), (e.maker, 0)]
  | some false => [(e.maker, e.notional), (e.requester, 0)]
  | none => [(e.requester, e.requesterContribution), (e.maker, e.makerContribution)]

end Escrow

-- ============================================================================
-- The ledger
-- ============================================================================

inductive CustodyError where
  | unknownAccount
  | insufficientAvailable
  | withdrawalAlreadyPending
  | noWithdrawalPending
  | withdrawalNotMatured
  | amountOverflow
  | unknownEscrow
  | escrowContractMismatch
deriving DecidableEq, Repr

/-- Why a settlement transaction reverted. -/
inductive SettleError where
  | nonceReused
  | quoteExpired (leg : Nat)
  | insufficientFunds (account : Nat)
  | escrowCapacityExhausted
  | unknownAccount
  | noLegs
  | tooManyLegs
  | amountOverflow
deriving DecidableEq, Repr

/-- One account's custody balance. -/
structure Balance where
  balance : Nat
  /-- Requested and not yet executed. -/
  pending : Nat
  maturesAt : Nat
deriving DecidableEq, Repr

/-- What admission validates. -/
def Balance.available (b : Balance) : Nat := saturatingSub b.balance b.pending

structure CustodyLedger where
  balances : List Balance
  escrows : List Escrow
  maxEscrows : Nat
  /-- The fate of every nonce that has reached a terminal answer. -/
  resolved : Nonce → Option TxStatus
  /-- Submitted and not yet included, oldest first. -/
  pending : List Bundle
  withdrawalDelay : Nat
  deposited : Nat
  withdrawn : Nat
  log : ChainLog
  exact : Bool
  payouts : List (Nat × Nat)

namespace CustodyLedger

def new (withdrawalDelay maxAccounts maxEscrows : Nat) : CustodyLedger where
  balances := List.replicate maxAccounts ⟨0, 0, 0⟩
  escrows := []
  maxEscrows := maxEscrows
  resolved := fun _ => none
  pending := []
  withdrawalDelay := withdrawalDelay
  deposited := 0
  withdrawn := 0
  log := .new
  exact := true
  payouts := []

def account (l : CustodyLedger) (account : Nat) : Option Balance := l.balances[account]?

/-- What custody holds for `account`. -/
def balance (l : CustodyLedger) (account : Nat) : Nat := ((l.account account).map Balance.balance).getD 0

def available (l : CustodyLedger) (account : Nat) : Nat :=
  ((l.account account).map Balance.available).getD 0

def escrow (l : CustodyLedger) (id : Nat) : Option Escrow := l.escrows[id]?

def nonceUsed (l : CustodyLedger) (nonce : Nonce) : Bool := decide (l.resolved nonce = some .settled)

/-- The fate of a nonce; terminal answers win over anything in the queue. -/
def status (l : CustodyLedger) (nonce : Nonce) : TxStatus :=
  match l.resolved nonce with
  | some status => status
  | none => if l.pending.any fun bundle => decide (bundle.nonce = nonce) then .pending else .unknown

def modifyAccount (l : CustodyLedger) (account : Nat) (f : Balance → Balance) : CustodyLedger :=
  { l with balances := l.balances.modify account f }

/-- Records whether an operation was exact. -/
def check (l : CustodyLedger) (exact : Bool) : CustodyLedger := { l with exact := l.exact && exact }

/-- Record an account's new availability in the log. -/
def logBalance (l : CustodyLedger) (account : Nat) : CustodyLedger :=
  { l with log := l.log.append (.balanceChanged account (l.available account)) }

-- ============================================================================
-- Deposits and withdrawals
-- ============================================================================

/-- Credit an account. -/
def deposit (l : CustodyLedger) (account amount : Nat) : Except CustodyError Unit × CustodyLedger :=
  match checkedAdd l.deposited amount with
  | none => (.error .amountOverflow, l)
  | some deposited =>
    match l.account account with
    | none => (.error .unknownAccount, l)
    | some entry =>
      match checkedAdd entry.balance amount with
      | none => (.error .amountOverflow, l)
      | some balance =>
        (.ok (), ({ l.modifyAccount account fun b => { b with balance } with deposited }).logBalance
          account)

/-- Mark funds as leaving. -/
def requestWithdrawal (l : CustodyLedger) (account amount now : Nat) :
    Except CustodyError Nat × CustodyLedger :=
  match l.account account with
  | none => (.error .unknownAccount, l)
  | some entry =>
    if entry.pending ≠ 0 then (.error .withdrawalAlreadyPending, l)
    else if entry.available < amount then (.error .insufficientAvailable, l)
    else
      match checkedAdd now l.withdrawalDelay with
      | none => (.error .amountOverflow, l)
      | some maturesAt =>
        (.ok maturesAt,
          (l.modifyAccount account fun b => { b with pending := amount, maturesAt }).logBalance account)

/-- Execute a matured withdrawal. -/
def executeWithdrawal (l : CustodyLedger) (account now : Nat) :
    Except CustodyError Nat × CustodyLedger :=
  match l.account account with
  | none => (.error .unknownAccount, l)
  | some entry =>
    if entry.pending = 0 then (.error .noWithdrawalPending, l)
    else if now < entry.maturesAt then (.error .withdrawalNotMatured, l)
    else
      let amount := min entry.pending entry.balance
      let l := l.check (decide (amount ≤ entry.balance ∧ l.withdrawn + amount ≤ u64Max))
      (.ok amount,
        ({ l.modifyAccount account fun b =>
            { b with balance := saturatingSub b.balance amount, pending := 0 } with
          withdrawn := saturatingAdd l.withdrawn amount }).logBalance account)

/-- Execute every withdrawal that has matured. -/
def executeMaturedWithdrawals (l : CustodyLedger) (now : Nat) : CustodyLedger :=
  (List.range l.balances.length).foldl (fun l account => (l.executeWithdrawal account now).2) l

-- ============================================================================
-- Payouts
-- ============================================================================

/-- Credit one side of a payout. -/
def credit (l : CustodyLedger) (account amount : Nat) : CustodyLedger :=
  (l.check ((l.account account).all fun b => decide (b.balance + amount ≤ u64Max))).modifyAccount
    account fun b => { b with balance := saturatingAdd b.balance amount }

def creditAll (l : CustodyLedger) (credits : List (Nat × Nat)) : CustodyLedger :=
  credits.foldl (fun l x => l.credit x.1 x.2) l

def logBalances (l : CustodyLedger) (accounts : List Nat) : CustodyLedger :=
  accounts.foldl logBalance l

/-- Pay one escrow out under `outcome`. -/
def settleEscrow (l : CustodyLedger) (id contract : Nat) (outcome : Outcome) :
    Except CustodyError Bool × CustodyLedger :=
  match l.escrow id with
  | none => (.error .unknownEscrow, l)
  | some escrow =>
    if escrow.contract ≠ contract then (.error .escrowContractMismatch, l)
    else if !escrow.isLocked then (.ok false, l)
    else
      let l := l.check
        (decide (escrow.requesterContribution + escrow.makerContribution ≤ u64Max))
      let credits := escrow.credits outcome
      let l := (l.creditAll credits).logBalances (credits.map Prod.fst)
      (.ok true, { l with
        escrows := l.escrows.set id escrow.markSettled
        payouts := l.payouts ++ [(id, (credits.map Prod.snd).sum)] })

-- ============================================================================
-- Settlement
-- ============================================================================

/-- Per-account debits, in the order accounts were first named. -/
abbrev Debits := List (Nat × Nat)

/-- The table holds `MAX_LEGS` makers and one requester. -/
def Debits.add (debits : Debits) (account amount : Nat) : Option Debits :=
  go (MAX_LEGS + 1) debits
where
  go : Nat → Debits → Option Debits
    | 0, _ => none
    | _ + 1, [] => some [(account, amount)]
    | slots + 1, (existing, total) :: rest =>
      if existing = account then
        (checkedAdd total amount).map fun total => (existing, total) :: rest
      else (go slots rest).map fun rest => (existing, total) :: rest

/-- The legs, checked and accumulated one after another. -/
def validateLegs (requester now : Nat) : List (BundleLeg × Nat) → Debits → Except SettleError Debits
  | [], debits => .ok debits
  | (leg, index) :: legs, debits =>
    if leg.quoteExpiry ≤ now then .error (.quoteExpired index)
    else
      match leg.makerContribution with
      | none => .error .amountOverflow
      | some maker =>
        match leg.requesterContribution with
        | none => .error .amountOverflow
        | some contribution =>
          match (debits.add leg.maker maker).bind fun debits => debits.add requester contribution with
          | none => .error .amountOverflow
          | some debits => validateLegs requester now legs debits

/-- The accumulated debits against what custody holds. -/
def validateDebits (l : CustodyLedger) : Debits → Except SettleError Unit
  | [] => .ok ()
  | (account, amount) :: debits =>
    if (l.account account).isNone then .error .unknownAccount
    else if l.balance account < amount then .error (.insufficientFunds account)
    else l.validateDebits debits

/-- Every check of a settlement, returning what each account would be debited. -/
def validate (l : CustodyLedger) (bundle : Bundle) (now : Nat) : Except SettleError Debits :=
  if bundle.legs.length = 0 then .error .noLegs
  else if MAX_LEGS < bundle.legs.length then .error .tooManyLegs
  else if l.nonceUsed bundle.nonce then .error .nonceReused
  else
    match validateLegs bundle.requester now bundle.legs.zipIdx [] with
    | .error e => .error e
    | .ok debits =>
      match l.validateDebits debits with
      | .error e => .error e
      | .ok () => .ok debits

/-- Debit one account. -/
def debit (l : CustodyLedger) (account amount : Nat) : CustodyLedger :=
  (l.check ((l.account account).all fun b => decide (amount ≤ b.balance))).modifyAccount
    account fun b => { b with balance := saturatingSub b.balance amount }

def debitAll (l : CustodyLedger) (debits : Debits) : CustodyLedger :=
  debits.foldl (fun l x => l.debit x.1 x.2) l

/-- The escrow a leg forms. -/
def escrowOf (requester : Nat) (leg : BundleLeg) : Escrow :=
  Escrow.lock leg.contract leg.side leg.size requester leg.maker
    (leg.requesterContribution.getD 0) (leg.makerContribution.getD 0)

/-- What a settled transaction produced. -/
structure SettleReceipt where
  escrows : List Nat
deriving DecidableEq, Repr

/-- One ledger operation of a settle-entry hook. -/
inductive LedgerOp where
  | deposit (account amount : Nat)
  | requestWithdrawal (account amount now : Nat)
  | executeWithdrawal (account now : Nat)
  | executeMaturedWithdrawals (now : Nat)
  | settleEscrow (id contract : Nat) (outcome : Outcome)
deriving DecidableEq, Repr

def LedgerOp.apply (l : CustodyLedger) : LedgerOp → CustodyLedger
  | .deposit account amount => (l.deposit account amount).2
  | .requestWithdrawal account amount now => (l.requestWithdrawal account amount now).2
  | .executeWithdrawal account now => (l.executeWithdrawal account now).2
  | .executeMaturedWithdrawals now => l.executeMaturedWithdrawals now
  | .settleEscrow id contract outcome => (l.settleEscrow id contract outcome).2

/-- What a hook does when it fires. -/
def fire (l : CustodyLedger) (hook : List LedgerOp) : CustodyLedger := hook.foldl LedgerOp.apply l

/-- The commit phase of a settlement. -/
def commitBundle (l : CustodyLedger) (bundle : Bundle) (debits : Debits) : CustodyLedger :=
  let l := (l.debitAll debits).logBalances (debits.map Prod.fst)
  { l with
    escrows := l.escrows ++ bundle.legs.map (escrowOf bundle.requester)
    resolved := Function.update l.resolved bundle.nonce (some .settled) }

/-- Include a bundle: validate everything, then debit all and form escrows, or
    revert entirely. -/
def settle (l : CustodyLedger) (hook : List LedgerOp) (bundle : Bundle) (now : Nat) :
    Except SettleError SettleReceipt × CustodyLedger :=
  let l := l.fire hook
  match l.validate bundle now with
  | .error e => (.error e, l)
  | .ok debits =>
    if l.maxEscrows < l.escrows.length + bundle.legs.length then
      (.error .escrowCapacityExhausted, l)
    else
      (.ok ⟨(List.range bundle.legs.length).map fun i => min (l.escrows.length + i) u32Max⟩,
        l.commitBundle bundle debits)

/-- A read-only dry run of `settle`. -/
def precheck (l : CustodyLedger) (bundle : Bundle) (now : Nat) : Except SettleError Unit :=
  (l.validate bundle now).map fun _ => ()

-- ============================================================================
-- Submission and inclusion
-- ============================================================================

/-- Send a bundle; the acknowledgement carries its nonce. -/
def submit (l : CustodyLedger) (bundle : Bundle) : Nonce × CustodyLedger :=
  (bundle.nonce, { l with pending := l.pending ++ [bundle] })

/-- A submission the chain has included, and what came of it. -/
structure IncludedTx where
  nonce : Nonce
  outcome : Except SettleError SettleReceipt
  status : TxStatus

/-- `entry(nonce).or_insert(status)`. -/
def orInsert (l : CustodyLedger) (nonce : Nonce) (status : TxStatus) : CustodyLedger :=
  match l.resolved nonce with
  | some _ => l
  | none => { l with resolved := Function.update l.resolved nonce (some status) }

/-- Include the oldest pending submission, applying it or reverting it. -/
def includeNext (l : CustodyLedger) (hook : List LedgerOp) (now : Nat) :
    Option IncludedTx × CustodyLedger :=
  match l.pending with
  | [] => (none, l)
  | bundle :: pending =>
    let l := { l with pending }
    match l.resolved bundle.nonce with
    | some existing => (some ⟨bundle.nonce, .error .nonceReused, existing⟩, l)
    | none =>
      let (outcome, l) := l.settle hook bundle now
      let status : TxStatus := match outcome with
        | .ok _ => .settled
        | .error _ => .reverted
      let l := l.orInsert bundle.nonce status
      let status := l.status bundle.nonce
      (some ⟨bundle.nonce, outcome, status⟩,
        { l with log := l.log.append (.settlementResolved bundle.nonce status) })

/-- The loop of `include_all`, over at most as many submissions as are queued; `clock n` is
    what custody's clock reads with `n` still behind. -/
def includeRest (hook : List LedgerOp) (clock : Nat → Nat) :
    Nat → CustodyLedger → List IncludedTx × CustodyLedger
  | 0, l => ([], l)
  | behind + 1, l =>
    match l.includeNext hook (clock behind) with
    | (none, l) => ([], l)
    | (some tx, l) =>
      let (included, l) := includeRest hook clock behind l
      (tx :: included, l)

/-- Include everything queued, oldest first. -/
def includeAll (l : CustodyLedger) (hook : List LedgerOp) (clock : Nat → Nat) :
    List IncludedTx × CustodyLedger :=
  includeRest hook clock l.pending.length l

/-- Discard the oldest pending submission without including it. -/
def dropNextSubmission (l : CustodyLedger) : Bool × CustodyLedger :=
  match l.pending with
  | [] => (false, l)
  | _ :: pending => (true, { l with pending })

end CustodyLedger

end RfqSettlement
