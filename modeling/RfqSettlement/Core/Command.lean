/-
  RfqSettlement.Core.Command

  The command set and the event set (`core/src/command.rs`,
  `core/src/event.rs`, `core/src/settlement.rs`), and the reasons a command is
  rejected for (`EngineError`, `NoQuoteReason`).

  A fixed array of legs with its count is the list of its first `n_legs` entries.
-/

import RfqSettlement.Core.Ledger

namespace RfqSettlement

-- ============================================================================
-- Commands
-- ============================================================================

/-- What the engine may know about a settlement transaction. -/
inductive TxStatus where
  | unknown
  | pending
  | settled
  | reverted
deriving DecidableEq, Repr

/-- The two answers; the others are the absence of one. -/
def TxStatus.isTerminal : TxStatus → Bool
  | .settled | .reverted => true
  | .unknown | .pending => false

/-- One leg of a request being opened. -/
structure LegSpec where
  contract : Nat
  side : Side
  size : Nat
  limit : Nat
deriving DecidableEq, Repr

/-- One line of the view an accept is made against. -/
structure ExpectedFill where
  leg : Nat
  price : Nat
deriving DecidableEq, Repr

inductive Command where
  | creditAccount (account free : Nat)
  | registerContract (contract eventDate : Nat)
  | submitRequest (requester deadline : Nat) (legs : List LegSpec)
  | rejectRequest (request : ReqIdx)
  | submitQuote (maker : Nat) (request : ReqIdx) (leg price size expiresAt : Nat)
  | cancelQuote (quote : QuoteIdx)
  | reportOracleStatus (contract : Nat) (status : OracleStatus)
  | settleEscrow (escrow contract : Nat)
  | pollSettlement (nonce : Nonce) (status : TxStatus)
  | acceptRequest (request : ReqIdx) (expected : List ExpectedFill)
deriving DecidableEq, Repr

-- ============================================================================
-- Events
-- ============================================================================

/-- A leg as makers see it: without its limit. -/
structure OpenLeg where
  contract : Nat
  side : Side
  size : Nat
deriving DecidableEq, Repr

/-- A leg of a settlement intent. -/
structure IntentLeg where
  contract : Nat
  side : Side
  size : Nat
  maker : Nat
  fillPrice : Nat
  quoteExpiry : Nat
deriving DecidableEq, Repr

inductive QuoteRejectReason where
  | outbid
  | settlementFailed
  | replaced
  | requestRejected
deriving DecidableEq, Repr

inductive Event where
  | requestOpened (request : ReqIdx) (deadline : Nat) (legs : List OpenLeg)
  | bestSelectionChanged (request : ReqIdx) (leg price : Nat)
  | quoteRejected (quote : QuoteIdx) (maker : Nat) (reason : QuoteRejectReason)
  | quoteExpired (quote : QuoteIdx) (maker : Nat)
  | contractResolved (contract : Nat) (outcome : Outcome)
  | settleIntent (escrow contract : Nat) (outcome : Outcome)
  | requestEscrowed (request : ReqIdx) (nonce : Nonce)
  | requestSettlementFailed (request : ReqIdx) (nonce : Nonce)
  | settlementStalled (request : ReqIdx) (nonce : Nonce) (status : TxStatus)
  | submitIntent (request : ReqIdx) (nonce : Nonce) (requester : Nat) (legs : List IntentLeg)
deriving DecidableEq, Repr

/-- A maker being told that a quote of theirs is gone. -/
def Event.isNotice : Event → Bool
  | .quoteRejected .. | .quoteExpired .. => true
  | _ => false

/-- An event the runtime acts on, by sending something to the chain. -/
def Event.isOrder : Event → Bool
  | .submitIntent .. | .settleIntent .. => true
  | _ => false

theorem Event.isOrder_of_isNotice {e : Event} (h : e.isNotice = true) : e.isOrder = false := by
  cases e <;> simp_all [isNotice, isOrder]

/-- A caller-provided buffer.  It never grows past its capacity. -/
structure EventBuffer where
  events : List Event
  capacity : Nat
deriving DecidableEq, Repr

namespace EventBuffer

/-- A drained buffer. -/
def withCapacity (capacity : Nat) : EventBuffer := ⟨[], capacity⟩

/-- Whether `needed` more events fit. -/
def headroom (b : EventBuffer) (needed : Nat) : Bool :=
  decide (b.events.length + needed ≤ b.capacity)

/-- Append an event; dropped if there is no room, which headroom rules out. -/
def push (b : EventBuffer) (event : Event) : EventBuffer :=
  if b.events.length < b.capacity then { b with events := b.events ++ [event] } else b

theorem push_of_room {b : EventBuffer} {event : Event} (h : b.events.length < b.capacity) :
    b.push event = { b with events := b.events ++ [event] } := if_pos h

@[simp] theorem capacity_push {b : EventBuffer} {event : Event} :
    (b.push event).capacity = b.capacity := by
  unfold push
  split <;> rfl

/-- `b'` is `b` with at most `n` events added, all of them notices to makers. -/
structure Noted (n : Nat) (b b' : EventBuffer) : Prop where
  capacity : b'.capacity = b.capacity
  events : ∃ new, b'.events = b.events ++ new ∧ new.length ≤ n ∧ ∀ e ∈ new, e.isNotice = true

theorem Noted.refl (b : EventBuffer) : Noted 0 b b := ⟨rfl, [], by simp, by simp, by simp⟩

theorem Noted.trans {n n' : Nat} {b b' b'' : EventBuffer} (h : Noted n b b') (h' : Noted n' b' b'') :
    Noted (n + n') b b'' := by
  obtain ⟨new, hb, hlen, hall⟩ := h.events
  obtain ⟨new', hb', hlen', hall'⟩ := h'.events
  refine ⟨h'.capacity.trans h.capacity, new ++ new', by rw [hb', hb, List.append_assoc], ?_, ?_⟩
  · rw [List.length_append]
    omega
  · intro e he
    rcases List.mem_append.mp he with he | he
    · exact hall e he
    · exact hall' e he

theorem Noted.mono {n n' : Nat} {b b' : EventBuffer} (h : Noted n b b') (hn : n ≤ n') :
    Noted n' b b' := by
  obtain ⟨new, hb, hlen, hall⟩ := h.events
  exact ⟨h.capacity, new, hb, by omega, hall⟩

theorem noted_push {b : EventBuffer} {event : Event} (h : event.isNotice = true) :
    Noted 1 b (b.push event) := by
  refine ⟨capacity_push, ?_⟩
  unfold push
  split
  · exact ⟨[event], rfl, by simp, by simpa using h⟩
  · exact ⟨[], by simp, by simp, by simp⟩

/-- Headroom for the notices and one event more. -/
theorem Noted.push_of_headroom {n : Nat} {b b' : EventBuffer} {event : Event} (h : Noted n b b')
    (hroom : b.headroom (n + 1) = true) :
    (b'.push event).events = b'.events ++ [event] ∧ (b'.push event).capacity = b.capacity := by
  obtain ⟨new, hb, hlen, -⟩ := h.events
  have hroom : b.events.length + (n + 1) ≤ b.capacity := by simpa [headroom] using hroom
  have hlt : b'.events.length < b'.capacity := by
    rw [h.capacity, hb, List.length_append]
    omega
  rw [push_of_room hlt]
  exact ⟨rfl, h.capacity⟩

/-- `b'` is `b` with events added that ask nothing of the runtime. -/
def Quiet (b b' : EventBuffer) : Prop :=
  ∃ new, b'.events = b.events ++ new ∧ ∀ e ∈ new, e.isOrder = false

theorem Quiet.refl (b : EventBuffer) : Quiet b b := ⟨[], by simp, by simp⟩

theorem Quiet.trans {b b' b'' : EventBuffer} (h : Quiet b b') (h' : Quiet b' b'') : Quiet b b'' := by
  obtain ⟨new, hb, hall⟩ := h
  obtain ⟨new', hb', hall'⟩ := h'
  refine ⟨new ++ new', by rw [hb', hb, List.append_assoc], fun e he => ?_⟩
  rcases List.mem_append.mp he with he | he
  · exact hall e he
  · exact hall' e he

theorem Noted.quiet {n : Nat} {b b' : EventBuffer} (h : Noted n b b') : Quiet b b' := by
  obtain ⟨new, hb, -, hall⟩ := h.events
  exact ⟨new, hb, fun e he => Event.isOrder_of_isNotice (hall e he)⟩

theorem quiet_push {b : EventBuffer} {event : Event} (h : event.isOrder = false) :
    Quiet b (b.push event) := by
  unfold push
  split
  · exact ⟨[event], rfl, by simpa using h⟩
  · exact .refl b

theorem quiet_foldl {α : Type} {f : α → Event} (hf : ∀ x, (f x).isOrder = false) (xs : List α)
    (b : EventBuffer) : Quiet b (xs.foldl (fun b x => b.push (f x)) b) := by
  induction xs generalizing b with
  | nil => exact .refl b
  | cons x xs ih => exact (quiet_push (hf x)).trans (ih _)

end EventBuffer

-- ============================================================================
-- Errors
-- ============================================================================

/-- Why a leg has no fill. -/
inductive NoQuoteReason where
  | noQuotes
  | allExpired
  | outsideLimit
  | sizeTooSmall
deriving DecidableEq, Repr

inductive EngineError where
  | ledger (error : LedgerError)
  | eventBufferFull
  | expiryOverflow
  | amountOverflow
  | deadlineTooFar
  | deadlineInThePast
  | contractTooNear
  | unknownContract
  | tooManyLegs
  | noLegs
  | priceOutOfRange
  | zeroSize
  | unknownRequest
  | requestNotOpen
  | requestDeadlinePassed
  | unknownLeg
  | quoteExpiryInThePast
  | quoteTtlTooLong
  | quoteTooSmall
  | worseReplacement
  | legQuoteLimitReached
  | quotesAreIrrevocable
  | unknownQuote
  | legCountMismatch
  | staleNonce
  | requestNotSettling
  | oracleStatusRegression
  | outcomeNotYet
  | noEligibleQuote (leg : Nat) (reason : NoQuoteReason)
  | presentationStale (leg expected actual : Nat)
  | reservationShortfall
deriving DecidableEq, Repr

end RfqSettlement
