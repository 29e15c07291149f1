/-
  RfqSettlement.Core.Telling

  The events each command can leave in its buffer.

  A buffer is only appended to.  `Command.pushes` lists, for every command, the kinds of
  event its handler pushes, and `pushes_perform` is that no handler pushes another: what is
  never said of something needs no look at the handlers.
-/

import RfqSettlement.Core.Engine

namespace RfqSettlement

-- ============================================================================
-- Buffers
-- ============================================================================

namespace EventBuffer

variable {Q Q' : Event → Prop} {b b' b'' : EventBuffer} {event : Event}

/-- `b'` is `b` with events of `Q` added. -/
def Adds (Q : Event → Prop) (b b' : EventBuffer) : Prop :=
  ∃ new, b'.events = b.events ++ new ∧ ∀ event ∈ new, Q event

theorem Adds.refl (b : EventBuffer) : Adds Q b b := ⟨[], by simp, by simp⟩

theorem Adds.trans (h : Adds Q b b') (h' : Adds Q b' b'') : Adds Q b b'' := by
  obtain ⟨new, heq, hnew⟩ := h
  obtain ⟨new', heq', hnew'⟩ := h'
  refine ⟨new ++ new', by rw [heq', heq, List.append_assoc], fun event hevent => ?_⟩
  exact (List.mem_append.mp hevent).elim (hnew event) (hnew' event)

theorem Adds.imp (h : Adds Q b b') (himp : ∀ event, Q event → Q' event) : Adds Q' b b' := by
  obtain ⟨new, heq, hnew⟩ := h
  exact ⟨new, heq, fun event hevent => himp event (hnew event hevent)⟩

theorem adds_push (h : Q event) : Adds Q b (b.push event) := by
  unfold push
  split
  · exact ⟨[event], rfl, fun event' hevent => by rwa [List.mem_singleton.mp hevent]⟩
  · exact .refl b

theorem adds_foldl {α : Type} {f : α → Event} (hf : ∀ x, Q (f x)) (xs : List α) :
    Adds Q b (xs.foldl (fun b x => b.push (f x)) b) := by
  induction xs generalizing b with
  | nil => exact .refl b
  | cons x xs ih => exact (adds_push (hf x)).trans ih

end EventBuffer

open EventBuffer (Adds)

-- ============================================================================
-- What the handlers share
-- ============================================================================

/-- Telling a maker. -/
abbrev Notice (event : Event) : Prop := event.isNotice = true

namespace Work

variable {w : Work} {r : ReqIdx} {i now : Nat} {q : QuoteIdx}

theorem notices_releaseQuote {reason : QuoteRejectReason} :
    Adds Notice w.2 (w.releaseQuote r i now reason q).2 := by
  unfold Work.releaseQuote
  split
  · exact .refl _
  next quote _ =>
    refine EventBuffer.adds_push ?_
    cases quote.isLiveAt now <;> rfl

theorem notices_releaseLeg {keep : Option Selection} {reason : QuoteRejectReason} :
    Adds Notice w.2 (w.releaseLeg r i keep now reason).2 := by
  unfold Work.releaseLeg
  split
  · exact .refl _
  next record hrecord =>
    generalize Work.doomed w.1 record keep = qs
    clear hrecord
    induction qs generalizing w with
    | nil => exact .refl _
    | cons q qs ih => exact notices_releaseQuote.trans ih

/-- A new best price is published, and nothing else is said. -/
theorem adds_publishSelection :
    Adds (fun event => ∃ price, event = .bestSelectionChanged r i price) w.2
      (w.publishSelection r i now).2 := by
  unfold Work.publishSelection
  repeat' split
  all_goals first
    | exact .refl _
    | exact EventBuffer.adds_push ⟨_, rfl⟩

end Work

-- ============================================================================
-- Commands
-- ============================================================================

/-- The events a command can push. -/
def Command.pushes : Command → Event → Bool
  | .submitRequest .., .requestOpened .. => true
  | .rejectRequest _, event => event.isNotice
  | .submitQuote .., .bestSelectionChanged .. => true
  | .submitQuote .., event => event.isNotice
  | .acceptRequest .., .submitIntent .. => true
  | .acceptRequest .., event => event.isNotice
  | .pollSettlement .., .settlementStalled .. | .pollSettlement .., .requestEscrowed ..
  | .pollSettlement .., .requestSettlementFailed .. => true
  | .pollSettlement .., event => event.isNotice
  | .reportOracleStatus contract (.final outcome), event =>
    decide (event = .contractResolved contract outcome)
  | .settleEscrow .., .settleIntent .. => true
  | _, _ => false

namespace Engine

variable {e : Engine} {command : Command} {now : Nat} {events : EventBuffer} {r : ReqIdx} {w : Work}

/-- The events of `command`. -/
abbrev Pushed (command : Command) (event : Event) : Prop := command.pushes event = true

theorem notices_rejectLegs {n : Nat} : Adds Notice w.2 (rejectLegs w r n now).2 := by
  unfold Engine.rejectLegs
  induction n with
  | zero => exact .refl _
  | succ n ih =>
      rw [List.range_succ, List.foldl_append, List.foldl_cons, List.foldl_nil]
      exact ih.trans Work.notices_releaseLeg

theorem notices_acceptLegs {i : Nat} {plan : List Selection} :
    Adds Notice w.2 (acceptLegs r now i plan w).2 := by
  induction plan generalizing w i with
  | nil => exact .refl _
  | cons winner plan ih =>
      have hleg : Adds Notice w.2 (acceptLeg w r i winner now).2 := Work.notices_releaseLeg
      exact hleg.trans ih

theorem notices_withdrawStanding {maker i : Nat} {stood : Option QuoteIdx} :
    Adds Notice w.2 (withdrawStanding w maker r i stood).2 := by
  cases stood with
  | none => exact .refl _
  | some q => exact EventBuffer.adds_push rfl

theorem pushes_rejectRequest :
    Adds (Pushed (.rejectRequest r)) events (e.rejectRequest r now events).2.2 := by
  unfold Engine.rejectRequest
  split
  · exact .refl _
  split
  · exact .refl _
  split
  · exact .refl _
  · exact notices_rejectLegs (w := (e.ledger, events))

theorem pushed_of_notice {expected : List ExpectedFill} {event : Event} (h : Notice event) :
    Pushed (.acceptRequest r expected) event := by
  cases event with
  | quoteRejected | quoteExpired => rfl
  | _ => cases h

theorem pushes_acceptRequest {expected : List ExpectedFill} :
    Adds (Pushed (.acceptRequest r expected)) events (e.acceptRequest r expected now events).2.2 := by
  unfold Engine.acceptRequest
  split
  · exact .refl _
  next acc _ =>
    have hlegs : Adds Notice events (acceptLegs r now 0 acc.plan (e.ledger, events)).2 :=
      notices_acceptLegs
    exact (hlegs.imp fun _ => pushed_of_notice).trans (EventBuffer.adds_push rfl)

theorem pushes_failRequest {nonce nonce' : Nonce} {status : TxStatus} :
    Adds (Pushed (.pollSettlement nonce' status)) events (e.failRequest r nonce events).2 := by
  refine Adds.trans (EventBuffer.adds_foldl
    (f := fun n : QuoteIdx × Nat => .quoteRejected n.1 n.2 .settlementFailed) ?_ _)
    (EventBuffer.adds_push rfl)
  exact fun _ => rfl

theorem pushes_pollSettlement {nonce : Nonce} {status : TxStatus} :
    Adds (Pushed (.pollSettlement nonce status)) events
      (e.pollSettlement nonce status now events).2.2 := by
  unfold Engine.pollSettlement
  repeat' split
  all_goals first
    | exact .refl _
    | exact EventBuffer.adds_push rfl
    | exact pushes_failRequest

theorem pushes_submitQuote {maker i price size expiresAt : Nat} :
    Adds (Pushed (.submitQuote maker r i price size expiresAt)) events
      (e.submitQuote maker r i price size expiresAt now events).2.2 := by
  have hstood : ∀ stood, Adds (Pushed (.submitQuote maker r i price size expiresAt)) events
      (withdrawStanding (e.ledger, events) maker r i stood).2 := by
    intro stood
    refine (notices_withdrawStanding (w := (e.ledger, events))).imp fun event hevent => ?_
    cases event with
    | quoteRejected | quoteExpired => rfl
    | _ => cases hevent
  unfold Engine.submitQuote
  split
  · exact .refl _
  next stood contribution _ =>
  dsimp only
  split
  · exact hstood stood
  · refine (hstood stood).trans (Work.adds_publishSelection.imp ?_)
    rintro event ⟨price, rfl⟩
    rfl

/-- No handler pushes anything else. -/
theorem pushes_perform : Adds (Pushed command) events (e.perform command now events).2.2 := by
  cases command with
  | submitQuote => exact pushes_submitQuote
  | rejectRequest r => exact pushes_rejectRequest
  | acceptRequest r expected => exact pushes_acceptRequest
  | pollSettlement nonce status => exact pushes_pollSettlement
  | submitRequest requester deadline legs =>
      rw [Engine.perform]
      unfold Engine.submitRequest
      repeat' split
      all_goals first | exact .refl _ | skip
      dsimp only
      split
      · exact .refl _
      · exact EventBuffer.adds_push rfl
  | reportOracleStatus contract status =>
      rw [Engine.perform]
      rcases e.reportOracleStatus_cases contract status events with ⟨err, heq⟩ | ⟨record, -, -, heq⟩
      · rw [heq]
        exact .refl _
      · rw [heq]
        cases status with
        | final outcome => exact EventBuffer.adds_push (decide_eq_true rfl)
        | _ => exact .refl _
  | settleEscrow escrow contract =>
      rw [Engine.perform]
      unfold Engine.settleEscrow
      repeat' split
      all_goals first | exact .refl _ | exact EventBuffer.adds_push rfl
  | _ =>
      rw [Engine.perform]
      split <;> exact .refl _

end Engine

end RfqSettlement
