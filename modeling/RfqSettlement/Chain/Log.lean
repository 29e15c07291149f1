/-
  RfqSettlement.Chain.Log

  The chain's append-only log, its moving head, and the indexer that turns its
  entries into engine commands.

  A transaction hash is minted from a counter and compared for equality only, so
  it is that counter here.  A cursor counts entries held in memory and is not
  bounded.
-/

import RfqSettlement.Core.Command

namespace RfqSettlement

-- ============================================================================
-- Entries
-- ============================================================================

/-- What happened, in terms the engine can be told about. -/
inductive ChainPayload where
  | balanceChanged (account available : Nat)
  | oracleStatusReported (contract : Nat) (status : OracleStatus)
  | settlementResolved (nonce : Nonce) (status : TxStatus)
  | escrowSettled (escrow contract : Nat) (outcome : Outcome)
deriving DecidableEq, Repr

/-- One log entry. -/
structure ChainEvent where
  block : Nat
  txHash : Nat
  logIndex : Nat
  payload : ChainPayload
deriving DecidableEq, Repr

/-- The dedup key of an entry. -/
def ChainEvent.key (entry : ChainEvent) : Nat × Nat := (entry.txHash, entry.logIndex)

-- ============================================================================
-- The log
-- ============================================================================

structure ChainLog where
  entries : List ChainEvent
  head : Nat
  /-- Transactions minted so far. -/
  nextTx : Nat
deriving DecidableEq, Repr

namespace ChainLog

def new : ChainLog := ⟨[], 0, 0⟩

/-- Mine a block. -/
def advanceBlock (log : ChainLog) : ChainLog :=
  { log with head := saturatingAdd log.head 1 }

/-- The entries of one transaction at the head. -/
def transaction (log : ChainLog) (payloads : List ChainPayload) : List ChainEvent :=
  payloads.zipIdx.map fun (payload, index) => ⟨log.head, log.nextTx, min index u32Max, payload⟩

/-- Append several entries as one transaction. -/
def appendTransaction (log : ChainLog) (payloads : List ChainPayload) : ChainLog :=
  { log with
    entries := log.entries ++ log.transaction payloads
    nextTx := saturatingAdd log.nextTx 1 }

/-- Append one entry in a transaction of its own. -/
def append (log : ChainLog) (payload : ChainPayload) : ChainLog :=
  { log with
    entries := log.entries ++ [⟨log.head, log.nextTx, 0, payload⟩]
    nextTx := saturatingAdd log.nextTx 1 }

/-- Discard every entry at or above `block`, and move the head back to just below. -/
def reorg (log : ChainLog) (block : Nat) : ChainLog :=
  { log with
    entries := log.entries.filter fun entry => decide (entry.block < block)
    head := saturatingSub block 1 }

end ChainLog

-- ============================================================================
-- The indexer
-- ============================================================================

/-- Cursor, confirmation depth and dedup. -/
structure Indexer where
  cursor : Nat
  confirmations : Nat
  delivered : List (Nat × Nat)
deriving DecidableEq, Repr

namespace Indexer

def new (confirmations : Nat) : Indexer := ⟨0, confirmations, []⟩

/-- The highest block the indexer will act on. -/
def horizon (indexer : Indexer) (head : Nat) : Option Nat :=
  checkedSub head indexer.confirmations

/-- A restart that lost its position. -/
def rewind (indexer : Indexer) : Indexer := { indexer with cursor := 0 }

/-- Losing the position and what has been delivered. -/
def forgetEverything (indexer : Indexer) : Indexer := { indexer with cursor := 0, delivered := [] }

/-- One log entry, as an engine command. -/
def translate (entry : ChainEvent) : Command :=
  match entry.payload with
  | .balanceChanged account available => .creditAccount account available
  | .oracleStatusReported contract status => .reportOracleStatus contract status
  | .settlementResolved nonce status => .pollSettlement nonce status
  | .escrowSettled escrow contract _ => .settleEscrow escrow contract

/-- The walk of `drain` over the entries from the cursor on. -/
def drainFrom (horizon : Nat) : List ChainEvent → Indexer → List Command × Indexer
  | [], indexer => ([], indexer)
  | entry :: entries, indexer =>
    if horizon < entry.block then ([], indexer)
    else
      let indexer := { indexer with cursor := indexer.cursor + 1 }
      if entry.key ∈ indexer.delivered then drainFrom horizon entries indexer
      else
        let (commands, indexer) :=
          drainFrom horizon entries { indexer with delivered := entry.key :: indexer.delivered }
        (translate entry :: commands, indexer)

/-- Read every confirmed, undelivered entry and translate it into a command. -/
def drain (indexer : Indexer) (log : ChainLog) : List Command × Indexer :=
  match indexer.horizon log.head with
  | none => ([], indexer)
  | some horizon => drainFrom horizon (log.entries.drop indexer.cursor) indexer

end Indexer

end RfqSettlement
