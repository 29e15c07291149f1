/-
  RfqSettlement.Runtime.Harness

  One engine, one custody, two clocks, and the wires between them
  (`runtime/src/harness.rs`).

  A clock is the stream of its readings, and `reads` counts the readings made so
  far: every `now()` takes the next one.  What the oracle says is in the operation
  that reports it.  Where an assertion of the source panics a run here goes on; only
  `stall_indexer` is refused where the source refuses it.

  Fields that are not the source's: `reads`; `commands`, what the indexer delivered;
  `included`, every inclusion with its bundle and its instant; and `opened`, the instant
  at which a request was made.
-/

import RfqSettlement.Chain.Operations
import RfqSettlement.Runtime.Settlement

namespace RfqSettlement

-- ============================================================================
-- The state
-- ============================================================================

/-- The readings of the two clocks, in the order they are made. -/
structure Clocks where
  engine : Nat → Nat
  chain : Nat → Nat

/-- An inclusion: the bundle it took off the queue, the instant custody sampled, and
    what came of it. -/
structure Inclusion where
  bundle : Bundle
  instant : Nat
  tx : CustodyLedger.IncludedTx

structure Harness where
  engine : Engine
  custody : CustodyLedger
  /-- Bundles the adapter has pulled off the event stream and not yet submitted. -/
  pending : List Bundle
  /-- Escrows formed so far, in the order settlement produced them. -/
  escrows : List Nat
  /-- Settlement intents the adapter has picked up and not yet applied. -/
  payouts : List Event
  indexer : Indexer
  indexerStalled : Bool
  /-- Bundles that have been sent. -/
  inFlight : List Bundle
  /-- Every event the engine has emitted, in order. -/
  emitted : List Event
  reads : Nat
  commands : List Command
  included : List Inclusion
  opened : ReqIdx → Nat

/-- A harness operation that one of the two systems refused. -/
inductive HarnessError where
  | engine (error : EngineError)
  | custody (error : CustodyError)
deriving DecidableEq, Repr

def Event.isSettleIntent : Event → Bool
  | .settleIntent .. => true
  | _ => false

/-- The commands a gateway sends; every other one comes from the chain. -/
def Command.isGateway : Command → Bool
  | .registerContract .. | .submitRequest .. | .rejectRequest _ | .submitQuote .. | .cancelQuote _
  | .acceptRequest .. => true
  | .creditAccount .. | .pollSettlement .. | .reportOracleStatus .. | .settleEscrow .. => false

namespace Harness

/-- What the harness's event buffer holds. -/
def eventCapacity : Nat := 64

/-- Both systems before anything happened. -/
def start (engine : Engine) : Harness where
  engine := engine
  custody := .new engine.config.withdrawalDelay engine.config.maxAccounts engine.config.maxEscrows
  pending := []
  escrows := []
  payouts := []
  indexer := .new engine.config.confirmations
  indexerStalled := false
  inFlight := []
  emitted := []
  reads := 0
  commands := []
  included := []
  opened := fun _ => 0

/-- Validate the configuration and construct both systems. -/
def new (config : Config) : Except ConfigError Harness := (Engine.new config).map start

theorem new_eq_ok {config : Config} {h : Harness} (hnew : new config = .ok h) :
    ∃ engine, Engine.new config = .ok engine ∧ h = start engine := by
  unfold new at hnew
  cases hengine : Engine.new config with
  | error err =>
      rw [hengine] at hnew
      cases hnew
  | ok engine =>
      rw [hengine] at hnew
      exact ⟨engine, rfl, (Except.ok.inj hnew).symm⟩

-- ============================================================================
-- Into the engine
-- ============================================================================

/-- The wires after a command: bundles and settlement intents are picked off the
    events.  Requests not stored yet are stamped with the instant of the command. -/
def absorb (h : Harness) (now : Nat) (answer : Engine.Answer) : Harness :=
  { h with
    engine := answer.2.1
    pending := h.pending ++ answer.2.2.events.filterMap bundleFrom
    payouts := h.payouts ++ answer.2.2.events.filter Event.isSettleIntent
    emitted := h.emitted ++ answer.2.2.events
    opened := fun r => if (h.engine.ledger.request r).isSome then h.opened r else now }

/-- Apply one command to the engine and pump the wires. -/
def apply (clocks : Clocks) (h : Harness) (command : Command) : Except HarnessError Unit × Harness :=
  let now := clocks.engine h.reads
  let answer := h.engine.apply command now (.withCapacity eventCapacity)
  (answer.1.mapError .engine, { h.absorb now answer with reads := h.reads + 1 })

/-- One delivered command; that it may be refused is ignored. -/
def deliver (clocks : Clocks) (h : Harness) (command : Command) : Harness :=
  { (h.apply clocks command).2 with commands := h.commands ++ [command] }

/-- Read every confirmed, undelivered log entry and apply the commands it yields. -/
def pumpIndexer (clocks : Clocks) (h : Harness) : Nat × Harness :=
  if h.indexerStalled then (0, h)
  else
    let (commands, indexer) := h.indexer.drain h.custody.log
    (commands.length, commands.foldl (deliver clocks) { h with indexer })

/-- Ask about a nonce.  A terminal answer is observed and not delivered. -/
def pollSettlement (clocks : Clocks) (h : Harness) (request : ReqIdx) :
    Except HarnessError TxStatus × Harness :=
  match (h.engine.ledger.request request).bind fun record => record.state.nonce with
  | none => (.error (.engine .requestNotSettling), h)
  | some nonce =>
    let status := h.custody.status nonce
    if status.isTerminal then (.ok status, h)
    else
      match h.apply clocks (.pollSettlement nonce status) with
      | (.error e, h) => (.error e, h)
      | (.ok (), h) => (.ok status, h)

-- ============================================================================
-- Into custody
-- ============================================================================

/-- Put money into custody. -/
def deposit (clocks : Clocks) (h : Harness) (account amount : Nat) :
    Except HarnessError Unit × Harness :=
  match h.custody.deposit account amount with
  | (.error e, custody) => (.error (.custody e), { h with custody })
  | (.ok (), custody) => (.ok (), (pumpIndexer clocks { h with custody }).2)

/-- Ask custody to release funds. -/
def requestWithdrawal (clocks : Clocks) (h : Harness) (account amount : Nat) :
    Except HarnessError Nat × Harness :=
  let reads := h.reads + 1
  match h.custody.requestWithdrawal account amount (clocks.chain h.reads) with
  | (.error e, custody) => (.error (.custody e), { h with custody, reads })
  | (.ok maturesAt, custody) => (.ok maturesAt, (pumpIndexer clocks { h with custody, reads }).2)

/-- Execute a matured withdrawal. -/
def executeWithdrawal (clocks : Clocks) (h : Harness) (account : Nat) :
    Except HarnessError Nat × Harness :=
  let reads := h.reads + 1
  match h.custody.executeWithdrawal account (clocks.chain h.reads) with
  | (.error e, custody) => (.error (.custody e), { h with custody, reads })
  | (.ok amount, custody) => (.ok amount, (pumpIndexer clocks { h with custody, reads }).2)

/-- Send one bundle, and keep it. -/
def send (h : Harness) (bundle : Bundle) : Harness :=
  { h with inFlight := h.inFlight ++ [bundle], custody := (h.custody.submit bundle).2 }

/-- Hand every bundle the adapter has picked up to custody, in order. -/
def submitPending (h : Harness) : Harness := h.pending.foldl send { h with pending := [] }

/-- Send a settling request's bundle again: the one the submitter kept. -/
def resubmit (h : Harness) (request : ReqIdx) : Except HarnessError Nonce × Harness :=
  match h.inFlight.find? fun bundle => decide (bundle.nonce.request = request.index) with
  | none => (.error (.engine .requestNotSettling), h)
  | some bundle => (.ok bundle.nonce, { h with custody := (h.custody.submit bundle).2 })

/-- Throw away the oldest pending submission without including it. -/
def loseNextSubmission (h : Harness) : Bool × Harness :=
  (h.custody.dropNextSubmission.1, { h with custody := h.custody.dropNextSubmission.2 })

/-- The queue beside what came of it.  `clock n` is the reading with `n` still behind. -/
def inclusions (clock : Nat → Nat) : List Bundle → List CustodyLedger.IncludedTx → List Inclusion
  | bundle :: queue, tx :: included => ⟨bundle, clock queue.length, tx⟩ :: inclusions clock queue included
  | _, _ => []

/-- The escrows of a receipt. -/
def formedBy (tx : CustodyLedger.IncludedTx) : List Nat :=
  match tx.outcome with
  | .ok receipt => receipt.escrows
  | .error _ => []

/-- Include everything the chain has been handed, oldest first. -/
def includeAll (clocks : Clocks) (h : Harness) : List CustodyLedger.IncludedTx × Harness :=
  let queue := h.custody.pending
  let clock := fun behind => clocks.chain (h.reads + (queue.length - 1 - behind))
  let (included, custody) := h.custody.includeAll [] clock
  (included, (pumpIndexer clocks { h with
    custody
    reads := h.reads + queue.length
    escrows := h.escrows ++ included.flatMap formedBy
    included := h.included ++ inclusions clock queue included }).2)

/-- One settlement intent applied to custody; no other event is one. -/
def pay (l : CustodyLedger) : Event → CustodyLedger
  | .settleIntent escrow contract outcome => (l.settleEscrow escrow contract outcome).2
  | _ => l

/-- Apply every settlement intent the adapter has picked up. -/
def applyPayouts (clocks : Clocks) (h : Harness) : Harness :=
  (pumpIndexer clocks { h with payouts := [], custody := h.payouts.foldl pay h.custody }).2

-- ============================================================================
-- The log and the indexer
-- ============================================================================

/-- Hand the engine what the oracle says about a contract. -/
def reportOracleStatus (clocks : Clocks) (h : Harness) (contract : Nat) (status : OracleStatus) :
    Harness :=
  (pumpIndexer clocks { h with custody := { h.custody with
    log := h.custody.log.append (.oracleStatusReported contract status) } }).2

/-- Someone asks for an escrow to be paid out. -/
def requestEscrowSettlement (clocks : Clocks) (h : Harness) (escrow contract : Nat)
    (outcome : Outcome) : Harness :=
  (pumpIndexer clocks { h with custody := { h.custody with
    log := h.custody.log.append (.escrowSettled escrow contract outcome) } }).2

/-- Mine a block, then deliver whatever that made deep enough. -/
def advanceBlock (clocks : Clocks) (h : Harness) : Harness :=
  (pumpIndexer clocks { h with custody := { h.custody with log := h.custody.log.advanceBlock } }).2

/-- Stop pumping the indexer; refused where the configuration claims zero lag. -/
def stallIndexer (h : Harness) : Harness :=
  if 0 < h.engine.config.maxIndexerLag then { h with indexerStalled := true } else h

/-- Resume pumping and catch the engine up. -/
def resumeIndexer (clocks : Clocks) (h : Harness) : Harness :=
  (pumpIndexer clocks { h with indexerStalled := false }).2

end Harness

-- ============================================================================
-- Runs
-- ============================================================================

/-- One operation on the harness.  `reorg` and `custody` reach custody through
    `custody_mut`; the latter does to it what its operation says, and pumps nothing. -/
inductive HarnessOp where
  | apply (command : Command)
  | pollSettlement (request : ReqIdx)
  | deposit (account amount : Nat)
  | requestWithdrawal (account amount : Nat)
  | executeWithdrawal (account : Nat)
  | submitPending
  | resubmit (request : ReqIdx)
  | loseNextSubmission
  | includeAll
  | applyPayouts
  | reportOracleStatus (contract : Nat) (status : OracleStatus)
  | requestEscrowSettlement (escrow contract : Nat) (outcome : Outcome)
  | advanceBlock
  | pumpIndexer
  | stallIndexer
  | resumeIndexer
  | rewind
  | forgetEverything
  | reorg (block : Nat)
  | custody (op : CustodyOp)

namespace Harness

/-- What an operation makes of the harness. -/
def perform (clocks : Clocks) (h : Harness) : HarnessOp → Harness
  | .apply command => (h.apply clocks command).2
  | .pollSettlement request => (h.pollSettlement clocks request).2
  | .deposit account amount => (h.deposit clocks account amount).2
  | .requestWithdrawal account amount => (h.requestWithdrawal clocks account amount).2
  | .executeWithdrawal account => (h.executeWithdrawal clocks account).2
  | .submitPending => h.submitPending
  | .resubmit request => (h.resubmit request).2
  | .loseNextSubmission => h.loseNextSubmission.2
  | .includeAll => (h.includeAll clocks).2
  | .applyPayouts => h.applyPayouts clocks
  | .reportOracleStatus contract status => h.reportOracleStatus clocks contract status
  | .requestEscrowSettlement escrow contract outcome =>
    h.requestEscrowSettlement clocks escrow contract outcome
  | .advanceBlock => h.advanceBlock clocks
  | .pumpIndexer => (h.pumpIndexer clocks).2
  | .stallIndexer => h.stallIndexer
  | .resumeIndexer => h.resumeIndexer clocks
  | .rewind => { h with indexer := h.indexer.rewind }
  | .forgetEverything => { h with indexer := h.indexer.forgetEverything }
  | .reorg block => { h with custody := { h.custody with log := h.custody.log.reorg block } }
  | .custody op => { h with custody := h.custody.perform op }

/-- The harnesses a validated configuration reaches by operations that `ok` lets through,
    each on the harness it finds. -/
inductive Reached (config : Config) (clocks : Clocks) (ok : Harness → HarnessOp → Prop) :
    Harness → Prop where
  | new {h : Harness} (hnew : new config = .ok h) : Reached config clocks ok h
  | perform {h : Harness} (hreached : Reached config clocks ok h) (op : HarnessOp) (hok : ok h op) :
      Reached config clocks ok (h.perform clocks op)

def run (clocks : Clocks) (h : Harness) (ops : List HarnessOp) : Harness :=
  ops.foldl (perform clocks) h

/-- Operations each let through on the harness it finds. -/
def Lets (clocks : Clocks) (ok : Harness → HarnessOp → Prop) : Harness → List HarnessOp → Prop
  | _, [] => True
  | h, op :: ops => ok h op ∧ Lets clocks ok (h.perform clocks op) ops

theorem Reached.run {config : Config} {clocks : Clocks} {ok : Harness → HarnessOp → Prop}
    {h : Harness} (ops : List HarnessOp) (hreached : Reached config clocks ok h)
    (hlets : Lets clocks ok h ops) : Reached config clocks ok (h.run clocks ops) := by
  induction ops generalizing h with
  | nil => exact hreached
  | cons op ops ih => exact ih (hreached.perform op hlets.1) hlets.2

end Harness

end RfqSettlement
