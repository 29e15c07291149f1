/-
  RfqSettlement.Runtime.Wires

  A harness operation as the moves it is made of.

  `Move` lists everything that can happen between the two systems, one thing at a
  time.  Beside the harness it carries the commands the indexer has drained and the
  engine has not been handed yet.  `moves_perform` takes every operation apart, and
  `Reached.induct` is the rule the invariants over both systems are proved by.
-/

import RfqSettlement.Runtime.Harness
import RfqSettlement.Chain.Moves

namespace RfqSettlement

namespace Harness

variable {config : Config} {clocks : Clocks} {ok : Harness → HarnessOp → Prop} {op : HarnessOp}
  {h h' : Harness} {commands commands' : List Command}

/-- A log entry that is neither a balance nor an answer. -/
def isRequest : ChainPayload → Bool
  | .oracleStatusReported .. | .escrowSettled .. => true
  | .balanceChanged .. | .settlementResolved .. => false

/-- The request an operation logs. -/
def requestOf : HarnessOp → Option ChainPayload
  | .reportOracleStatus contract status => some (.oracleStatusReported contract status)
  | .requestEscrowSettlement escrow contract outcome => some (.escrowSettled escrow contract outcome)
  | _ => none

/-- One move of the operation `op`, on a harness and the commands it has yet to deliver. -/
inductive Move (clocks : Clocks) (ok : Harness → HarnessOp → Prop) (op : HarnessOp) :
    Harness → List Command → Harness → List Command → Prop where
  | applied {h : Harness} {command : Command} (hop : op = .apply command) (hok : ok h op) :
      Move clocks ok op h [] (h.apply clocks command).2 []
  | polled {h : Harness} {request : ReqIdx} {nonce : Nonce} (hop : op = .pollSettlement request)
      (hopen : (h.custody.status nonce).isTerminal = false) :
      Move clocks ok op h [] (h.apply clocks (.pollSettlement nonce (h.custody.status nonce))).2 []
  | delivered {h : Harness} {command : Command} {commands : List Command} :
      Move clocks ok op h (command :: commands) (h.deliver clocks command) commands
  | drained {h : Harness} (hlive : h.indexerStalled = false) :
      Move clocks ok op h [] { h with indexer := (h.indexer.drain h.custody.log).2 }
        (h.indexer.drain h.custody.log).1
  | deposited {h : Harness} {account amount : Nat} (hop : op = .deposit account amount)
      (hok : ok h op) :
      Move clocks ok op h [] { h with custody := (h.custody.deposit account amount).2 } []
  | requested {h : Harness} {account amount : Nat} (hop : op = .requestWithdrawal account amount)
      (hok : ok h op) :
      Move clocks ok op h [] { h with
        custody := (h.custody.requestWithdrawal account amount (clocks.chain h.reads)).2
        reads := h.reads + 1 } []
  | executed {h : Harness} {account : Nat} (hop : op = .executeWithdrawal account) (hok : ok h op) :
      Move clocks ok op h [] { h with
        custody := (h.custody.executeWithdrawal account (clocks.chain h.reads)).2
        reads := h.reads + 1 } []
  | sent {h : Harness} {bundle : Bundle} {pending : List Bundle} (hop : op = .submitPending)
      (hpending : h.pending = bundle :: pending) :
      Move clocks ok op h [] (send { h with pending } bundle) []
  | resent {h : Harness} {request : ReqIdx} {bundle : Bundle} (hop : op = .resubmit request)
      (hkept : bundle ∈ h.inFlight) :
      Move clocks ok op h [] { h with custody := (h.custody.submit bundle).2 } []
  | lost {h : Harness} (hop : op = .loseNextSubmission) :
      Move clocks ok op h [] { h with custody := h.custody.dropNextSubmission.2 } []
  | included {h : Harness} {bundle : Bundle} {pending : List Bundle} {tx : CustodyLedger.IncludedTx}
      (hop : op = .includeAll) (hok : ∃ h₀, ok h₀ op)
      (hpending : h.custody.pending = bundle :: pending)
      (htx : (h.custody.includeNext [] (clocks.chain h.reads)).1 = some tx) :
      Move clocks ok op h [] { h with
        custody := (h.custody.includeNext [] (clocks.chain h.reads)).2
        reads := h.reads + 1
        escrows := h.escrows ++ formedBy tx
        included := h.included ++ [⟨bundle, clocks.chain h.reads, tx⟩] } []
  | paid {h : Harness} {intent : Event} {payouts : List Event} (hop : op = .applyPayouts)
      (hok : ∃ h₀, ok h₀ op) (hpayouts : h.payouts = intent :: payouts) :
      Move clocks ok op h [] { h with payouts, custody := pay h.custody intent } []
  | logged {h : Harness} {payload : ChainPayload} (hrequest : isRequest payload = true)
      (hop : requestOf op = some payload) :
      Move clocks ok op h [] { h with
        custody := { h.custody with log := h.custody.log.append payload } } []
  | mined {h : Harness} :
      Move clocks ok op h [] { h with custody := { h.custody with log := h.custody.log.advanceBlock } } []
  | stalled {h : Harness} (hop : op = .stallIndexer) (hok : ok h op)
      (hlag : 0 < h.engine.config.maxIndexerLag) :
      Move clocks ok op h [] { h with indexerStalled := true } []
  | resumed {h : Harness} : Move clocks ok op h [] { h with indexerStalled := false } []
  | rewound {h : Harness} : Move clocks ok op h [] { h with indexer := h.indexer.rewind } []
  | forgot {h : Harness} (hop : op = .forgetEverything) (hok : ok h op) :
      Move clocks ok op h [] { h with indexer := h.indexer.forgetEverything } []
  | reorged {h : Harness} {block : Nat} (hop : op = .reorg block) (hok : ok h op) :
      Move clocks ok op h [] { h with custody := { h.custody with log := h.custody.log.reorg block } } []
  | handled {h : Harness} {custodyOp : CustodyOp} (hop : op = .custody custodyOp) (hok : ok h op) :
      Move clocks ok op h [] { h with custody := h.custody.perform custodyOp } []

/-- Any number of moves of one operation. -/
inductive Moves (clocks : Clocks) (ok : Harness → HarnessOp → Prop) (op : HarnessOp) :
    Harness → List Command → Harness → List Command → Prop where
  | refl (h : Harness) (commands : List Command) : Moves clocks ok op h commands h commands
  | head {h h' h'' : Harness} {commands commands' commands'' : List Command}
      (hmove : Move clocks ok op h commands h' commands')
      (hrest : Moves clocks ok op h' commands' h'' commands'') :
      Moves clocks ok op h commands h'' commands''

theorem Moves.one (hmove : Move clocks ok op h commands h' commands') :
    Moves clocks ok op h commands h' commands' :=
  .head hmove (.refl _ _)

theorem Moves.trans {h'' : Harness} {commands'' : List Command}
    (hmoves : Moves clocks ok op h commands h' commands')
    (hmoves' : Moves clocks ok op h' commands' h'' commands'') :
    Moves clocks ok op h commands h'' commands'' := by
  induction hmoves with
  | refl => exact hmoves'
  | head hmove _ ih => exact .head hmove (ih hmoves')

-- ============================================================================
-- Operations taken apart
-- ============================================================================

theorem moves_deliver : Moves clocks ok op h commands (commands.foldl (deliver clocks) h) [] := by
  induction commands generalizing h with
  | nil => exact .refl h []
  | cons command commands ih => exact .head .delivered ih

theorem moves_pumpIndexer : Moves clocks ok op h [] (h.pumpIndexer clocks).2 [] := by
  unfold pumpIndexer
  split
  · exact .refl h []
  next hlive => exact .head (.drained (by simpa using hlive)) moves_deliver

/-- A move, then a pump. -/
theorem moves_pumped (hmove : Move clocks ok op h [] h' []) :
    Moves clocks ok op h [] (h'.pumpIndexer clocks).2 [] :=
  .head hmove moves_pumpIndexer

theorem moves_deposit {account amount : Nat} (hop : op = .deposit account amount) (hok : ok h op) :
    Moves clocks ok op h [] (h.deposit clocks account amount).2 [] := by
  have hmove : Move clocks ok op h [] _ [] := .deposited hop hok
  unfold deposit
  split
  next hrefused =>
    rw [hrefused] at hmove
    exact .one hmove
  next hdone =>
    rw [hdone] at hmove
    exact moves_pumped hmove

theorem moves_requestWithdrawal {account amount : Nat} (hop : op = .requestWithdrawal account amount)
    (hok : ok h op) : Moves clocks ok op h [] (h.requestWithdrawal clocks account amount).2 [] := by
  have hmove : Move clocks ok op h [] _ [] := .requested hop hok
  unfold requestWithdrawal
  dsimp only
  split
  next hrefused =>
    rw [hrefused] at hmove
    exact .one hmove
  next hdone =>
    rw [hdone] at hmove
    exact moves_pumped hmove

theorem moves_executeWithdrawal {account : Nat} (hop : op = .executeWithdrawal account)
    (hok : ok h op) : Moves clocks ok op h [] (h.executeWithdrawal clocks account).2 [] := by
  have hmove : Move clocks ok op h [] _ [] := .executed hop hok
  unfold executeWithdrawal
  dsimp only
  split
  next hrefused =>
    rw [hrefused] at hmove
    exact .one hmove
  next hdone =>
    rw [hdone] at hmove
    exact moves_pumped hmove

theorem moves_pollSettlement {request : ReqIdx} (hop : op = .pollSettlement request) :
    Moves clocks ok op h [] (h.pollSettlement clocks request).2 [] := by
  unfold pollSettlement
  split
  · exact .refl h []
  next nonce _ =>
  dsimp only
  split
  · exact .refl h []
  next hopen =>
  have hmove : Move clocks ok op h [] _ [] := @Move.polled _ _ _ _ _ nonce hop (by simpa using hopen)
  split
  next heq =>
    rw [heq] at hmove
    exact .one hmove
  next heq =>
    rw [heq] at hmove
    exact .one hmove

theorem moves_submitPending (hop : op = .submitPending) :
    Moves clocks ok op h [] h.submitPending [] := by
  unfold submitPending
  have hsend : ∀ (bundles : List Bundle) (h : Harness), h.pending = bundles →
      Moves clocks ok op h [] (bundles.foldl send { h with pending := [] }) [] := by
    intro bundles
    induction bundles with
    | nil =>
        intro h hpending
        rw [List.foldl_nil, ← hpending]
        exact .refl h []
    | cons bundle bundles ih =>
        intro h hpending
        exact .head (.sent hop hpending) (ih _ rfl)
  exact hsend _ h rfl

theorem moves_applyPayouts (hop : op = .applyPayouts) (hok : ok h op) :
    Moves clocks ok op h [] (h.applyPayouts clocks) [] := by
  have hpay : ∀ (intents : List Event) (h : Harness), h.payouts = intents →
      Moves clocks ok op h [] { h with payouts := [], custody := intents.foldl pay h.custody } [] := by
    intro intents
    induction intents with
    | nil =>
        intro h hpayouts
        rw [List.foldl_nil, ← hpayouts]
        exact .refl h []
    | cons intent intents ih =>
        intro h hpayouts
        exact .head (.paid hop ⟨_, hok⟩ hpayouts) (ih _ rfl)
  exact (hpay h.payouts h rfl).trans moves_pumpIndexer

/-- The loop of `include_all`, from the reading it has come to. -/
theorem moves_includeRest (hop : op = .includeAll) (hok : ∃ h₀, ok h₀ op) (clock : Nat → Nat)
    (queue : List Bundle) (h : Harness) (hqueue : h.custody.pending = queue)
    (hclock : ∀ behind, behind < queue.length →
      clock behind = clocks.chain (h.reads + (queue.length - 1 - behind))) :
    Moves clocks ok op h [] { h with
      custody := (CustodyLedger.includeRest [] clock queue.length h.custody).2
      reads := h.reads + queue.length
      escrows := h.escrows ++
        (CustodyLedger.includeRest [] clock queue.length h.custody).1.flatMap formedBy
      included := h.included ++
        inclusions clock queue (CustodyLedger.includeRest [] clock queue.length h.custody).1 } [] := by
  induction queue generalizing h with
  | nil =>
      simp only [List.length_nil, CustodyLedger.includeRest, inclusions, List.flatMap_nil,
        List.append_nil, Nat.add_zero]
      exact .refl h []
  | cons bundle queue ih =>
      have hnow : clock queue.length = clocks.chain h.reads := by
        rw [hclock queue.length (by simp)]
        simp
      have hpending := CustodyLedger.pending_includeNext h.custody [] (clocks.chain h.reads)
      rw [hqueue, List.tail_cons] at hpending
      rw [List.length_cons, CustodyLedger.includeRest, hnow]
      have hmove : ∀ tx, (h.custody.includeNext [] (clocks.chain h.reads)).1 = some tx →
          Move clocks ok op h [] _ [] := fun tx htx => .included hop hok hqueue htx
      have hsome : (h.custody.includeNext [] (clocks.chain h.reads)).1 ≠ none := by
        intro hnone
        have hcases := CustodyLedger.includeNext_cases h.custody [] (clocks.chain h.reads)
        generalize h.custody.includeNext [] (clocks.chain h.reads) = result at hcases hnone
        cases hcases with
        | idle hidle => rw [hqueue] at hidle; cases hidle
        | bounced => cases hnone
        | reverted => cases hnone
        | settled => cases hnone
      generalize h.custody.includeNext [] (clocks.chain h.reads) = result at *
      obtain ⟨tx, custody⟩ := result
      cases tx with
      | none => exact absurd rfl hsome
      | some tx =>
          refine .head (hmove tx rfl) ?_
          have hrest := ih { h with
            custody
            reads := h.reads + 1
            escrows := h.escrows ++ formedBy tx
            included := h.included ++ [⟨bundle, clocks.chain h.reads, tx⟩] } hpending
            fun behind hlt => by
              rw [hclock behind (by simp; omega)]
              congr 1
              simp only [List.length_cons]
              omega
          simp only [inclusions, List.flatMap_cons, hnow]
          simp only [List.append_assoc, List.singleton_append, Nat.add_assoc] at hrest ⊢
          rw [Nat.add_comm 1] at hrest
          exact hrest

theorem moves_includeAll (hop : op = .includeAll) (hok : ok h op) :
    Moves clocks ok op h [] (h.includeAll clocks).2 [] := by
  have hloop : Moves clocks ok op h [] _ [] := moves_includeRest hop ⟨h, hok⟩
    (fun behind => clocks.chain (h.reads + (h.custody.pending.length - 1 - behind)))
    h.custody.pending h rfl fun _ _ => rfl
  exact hloop.trans moves_pumpIndexer

/-- Every operation is made of moves. -/
theorem moves_perform (hok : ok h op) : Moves clocks ok op h [] (h.perform clocks op) [] := by
  cases op with
  | apply command => exact .one (.applied rfl hok)
  | pollSettlement request => exact moves_pollSettlement rfl
  | deposit account amount => exact moves_deposit rfl hok
  | requestWithdrawal account amount => exact moves_requestWithdrawal rfl hok
  | executeWithdrawal account => exact moves_executeWithdrawal rfl hok
  | submitPending => exact moves_submitPending rfl
  | resubmit request =>
      rw [perform]
      unfold resubmit
      split
      · exact .refl h []
      next hfound => exact .one (.resent rfl (List.mem_of_find?_eq_some hfound))
  | loseNextSubmission => exact .one (.lost rfl)
  | includeAll => exact moves_includeAll rfl hok
  | applyPayouts => exact moves_applyPayouts rfl hok
  | reportOracleStatus contract status => exact moves_pumped (.logged rfl rfl)
  | requestEscrowSettlement escrow contract outcome => exact moves_pumped (.logged rfl rfl)
  | advanceBlock => exact moves_pumped .mined
  | pumpIndexer => exact moves_pumpIndexer
  | stallIndexer =>
      rw [perform]
      unfold stallIndexer
      split
      next hlag => exact .one (.stalled rfl hok hlag)
      · exact .refl h []
  | resumeIndexer => exact moves_pumped .resumed
  | rewind => exact .one .rewound
  | forgetEverything => exact .one (.forgot rfl hok)
  | reorg block => exact .one (.reorged rfl hok)
  | custody custodyOp => exact .one (.handled rfl hok)

/-- What every move keeps, every operation keeps. -/
theorem Moves.induct {P : Harness → List Command → Prop}
    (hmoves : Moves clocks ok op h commands h' commands')
    (hmove : ∀ h commands h' commands', Move clocks ok op h commands h' commands' →
      P h commands → P h' commands') (hP : P h commands) : P h' commands' := by
  induction hmoves with
  | refl => exact hP
  | head hone _ ih => exact ih (hmove _ _ _ _ hone hP)

/-- What every move keeps holds of every harness reached. -/
theorem Reached.induct {P : Harness → List Command → Prop} (hreached : Reached config clocks ok h)
    (hnew : ∀ h, Harness.new config = Except.ok h → P h [])
    (hmove : ∀ op h commands h' commands', Move clocks ok op h commands h' commands' →
      P h commands → P h' commands') : P h [] := by
  induction hreached with
  | new hstart => exact hnew _ hstart
  | perform _ op hok ih => exact (moves_perform hok).induct (hmove op) ih

end Harness

end RfqSettlement
