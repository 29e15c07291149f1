/-
  RfqSettlement.Chain.Growth

  How custody's log grows.

  `Extends Q` is a log with entries of `Q` appended, one after another.  Whatever moves
  money logs balances and nothing else, and an inclusion one answer after them.
-/

import RfqSettlement.Chain.Moves
import RfqSettlement.Chain.Operations

namespace RfqSettlement

-- ============================================================================
-- Payloads
-- ============================================================================

/-- An account and what is available of it. -/
def ChainPayload.isBalance : ChainPayload → Bool
  | .balanceChanged .. => true
  | _ => false

/-- What custody logs of itself; the rest are requests of others. -/
def ChainPayload.ofCustody : ChainPayload → Bool
  | .balanceChanged .. | .settlementResolved .. => true
  | _ => false

theorem ChainPayload.ofCustody_of_isBalance {p : ChainPayload} (h : p.isBalance = true) :
    p.ofCustody = true := by
  cases p with
  | balanceChanged => rfl
  | _ => cases h

-- ============================================================================
-- Logs
-- ============================================================================

/-- `log'` is `log` with payloads of `Q` appended. -/
def ChainLog.Extends (Q : ChainPayload → Bool) (log log' : ChainLog) : Prop :=
  ∃ payloads : List ChainPayload, (∀ p ∈ payloads, Q p = true) ∧
    log' = payloads.foldl ChainLog.append log

namespace ChainLog

variable {Q Q' : ChainPayload → Bool} {log log' log'' : ChainLog}

theorem Extends.refl (log : ChainLog) : log.Extends Q log := ⟨[], by simp, rfl⟩

theorem Extends.trans (h : log.Extends Q log') (h' : log'.Extends Q log'') : log.Extends Q log'' := by
  obtain ⟨payloads, hall, rfl⟩ := h
  obtain ⟨payloads', hall', rfl⟩ := h'
  refine ⟨payloads ++ payloads', fun p hp => ?_, List.foldl_append.symm⟩
  exact (List.mem_append.mp hp).elim (hall p) (hall' p)

theorem Extends.imp (h : log.Extends Q log') (himp : ∀ p, Q p = true → Q' p = true) :
    log.Extends Q' log' := by
  obtain ⟨payloads, hall, heq⟩ := h
  exact ⟨payloads, fun p hp => himp p (hall p hp), heq⟩

theorem extends_append (log : ChainLog) {payload : ChainPayload} (hpayload : Q payload = true) :
    log.Extends Q (log.append payload) :=
  ⟨[payload], fun _ hp => List.mem_singleton.mp hp ▸ hpayload, rfl⟩

theorem Extends.nextTx_le (h : log.Extends Q log') (hhashes : log.nextTx ≤ u64Max) :
    log.nextTx ≤ log'.nextTx := by
  obtain ⟨payloads, -, rfl⟩ := h
  induction payloads generalizing log with
  | nil => exact Nat.le_refl _
  | cons payload payloads ih =>
      have hone : log.nextTx ≤ (log.append payload).nextTx ∧
          (log.append payload).nextTx ≤ u64Max := by
        simp only [ChainLog.append, saturatingAdd]
        omega
      exact hone.1.trans (ih hone.2)

/-- The entries of a log that grew: those it had, and those of `Q`. -/
theorem Extends.entries (h : log.Extends Q log') :
    ∃ added, log'.entries = log.entries ++ added ∧ ∀ x ∈ added, Q x.payload = true := by
  obtain ⟨payloads, hall, rfl⟩ := h
  induction payloads generalizing log with
  | nil => exact ⟨[], by simp, by simp⟩
  | cons payload payloads ih =>
      obtain ⟨hpayload, hrest⟩ := List.forall_mem_cons.mp hall
      obtain ⟨added, heq, hadded⟩ : ∃ added, (payloads.foldl ChainLog.append (log.append payload)).entries =
          (log.append payload).entries ++ added ∧ ∀ x ∈ added, Q x.payload = true := ih hrest
      refine ⟨⟨log.head, log.nextTx, 0, payload⟩ :: added, ?_, ?_⟩
      · rw [List.foldl_cons, heq, ChainLog.append, List.append_assoc]
        rfl
      · exact List.forall_mem_cons.mpr ⟨hpayload, hadded⟩

end ChainLog

-- ============================================================================
-- Custody's operations
-- ============================================================================

namespace CustodyLedger

variable {l : CustodyLedger} {hook : List LedgerOp} {debits : Debits} {bundle : Bundle}

open ChainPayload (isBalance ofCustody)

theorem log_creditAll (credits : List (Nat × Nat)) : (l.creditAll credits).log = l.log := by
  induction credits generalizing l with
  | nil => rfl
  | cons x credits ih => exact ih

theorem log_debitAll (debits : Debits) : (l.debitAll debits).log = l.log := by
  induction debits generalizing l with
  | nil => rfl
  | cons x debits ih => exact ih

theorem extends_logBalance (account : Nat) : l.log.Extends isBalance (l.logBalance account).log :=
  ChainLog.extends_append _ rfl

theorem extends_logBalances (accounts : List Nat) :
    l.log.Extends isBalance (l.logBalances accounts).log := by
  induction accounts generalizing l with
  | nil => exact .refl _
  | cons account accounts ih => exact (extends_logBalance account).trans ih

theorem extends_executeWithdrawal (account now : Nat) :
    l.log.Extends isBalance (l.executeWithdrawal account now).2.log := by
  rcases executeWithdrawal_cases l account now with ⟨_, heq⟩ | ⟨_, -, -, -, heq⟩
  · rw [heq]
    exact .refl _
  · rw [heq]
    exact ChainLog.extends_append l.log rfl

theorem extends_paid (e : Escrow) (outcome : Outcome) :
    l.log.Extends isBalance (l.paid e outcome).log := by
  have hcredited : ((l.check (decide (e.requesterContribution + e.makerContribution ≤ u64Max))).creditAll
      (e.credits outcome)).log = l.log := log_creditAll _
  rw [← hcredited]
  exact extends_logBalances _

/-- An operation of the ledger logs balances. -/
theorem extends_apply (op : LedgerOp) : l.log.Extends isBalance (op.apply l).log := by
  cases op with
  | deposit account amount =>
      rcases deposit_cases l account amount with ⟨_, heq⟩ | ⟨_, -, -, -, heq⟩
      · rw [LedgerOp.apply, heq]
        exact .refl _
      · rw [LedgerOp.apply, heq]
        exact ChainLog.extends_append l.log rfl
  | requestWithdrawal account amount now =>
      rcases requestWithdrawal_cases l account amount now with ⟨_, heq⟩ | ⟨_, -, -, -, -, heq⟩
      · rw [LedgerOp.apply, heq]
        exact .refl _
      · rw [LedgerOp.apply, heq]
        exact ChainLog.extends_append l.log rfl
  | executeWithdrawal account now => exact extends_executeWithdrawal account now
  | executeMaturedWithdrawals now =>
      unfold LedgerOp.apply executeMaturedWithdrawals
      induction List.range l.balances.length generalizing l with
      | nil => exact .refl _
      | cons account accounts ih => exact (extends_executeWithdrawal account now).trans ih
  | settleEscrow id contract outcome =>
      rcases settleEscrow_cases l id contract outcome with ⟨_, -, heq⟩ | ⟨e, -, -, -, heq⟩
      · rw [LedgerOp.apply, heq]
        exact .refl _
      · rw [LedgerOp.apply, heq]
        exact extends_paid e outcome

theorem extends_fire (hook : List LedgerOp) : l.log.Extends isBalance (l.fire hook).log := by
  unfold fire
  induction hook generalizing l with
  | nil => exact .refl _
  | cons op hook ih => exact (extends_apply op).trans ih

theorem extends_commitBundle (bundle : Bundle) (debits : Debits) :
    l.log.Extends isBalance (l.commitBundle bundle debits).log := by
  have hlogged : (l.debitAll debits).log.Extends isBalance
      ((l.debitAll debits).logBalances (debits.map Prod.fst)).log := extends_logBalances _
  rwa [log_debitAll] at hlogged

/-- An inclusion logs balances and, unless it bounces, an answer. -/
theorem extends_includeNext (hook : List LedgerOp) (now : Nat) :
    l.log.Extends ofCustody (l.includeNext hook now).2.log := by
  have hcases := includeNext_cases l hook now
  generalize l.includeNext hook now = result at hcases
  cases hcases with
  | idle => exact .refl _
  | bounced => exact .refl _
  | @reverted bundle pending err =>
      have hfire : l.log.Extends isBalance (({ l with pending } : CustodyLedger).fire hook).log :=
        extends_fire (l := { l with pending }) hook
      exact (hfire.imp fun _ => ChainPayload.ofCustody_of_isBalance).trans
        (ChainLog.extends_append _ rfl)
  | @settled bundle pending receipt debits =>
      have hfire : l.log.Extends isBalance (({ l with pending } : CustodyLedger).fire hook).log :=
        extends_fire (l := { l with pending }) hook
      have hcommit := hfire.trans (extends_commitBundle bundle debits)
      exact (hcommit.imp fun _ => ChainPayload.ofCustody_of_isBalance).trans
        (ChainLog.extends_append _ rfl)

/-- Custody logs nothing but its own. -/
theorem extends_perform (op : CustodyOp) : l.log.Extends ofCustody (l.perform op).log := by
  have hown : ∀ {l' : CustodyLedger}, l.log.Extends isBalance l'.log → l.log.Extends ofCustody l'.log :=
    fun h => h.imp fun _ => ChainPayload.ofCustody_of_isBalance
  cases op with
  | ledger op => exact hown (extends_apply op)
  | submit => exact .refl _
  | includeNext hook now => exact extends_includeNext hook now
  | includeAll hook clock =>
      exact includeRest_induct (P := fun l' => l.log.Extends ofCustody l'.log)
        (fun _ now h => h.trans (extends_includeNext hook now)) _ (.refl _)
  | dropNextSubmission =>
      rw [perform, dropNextSubmission]
      split <;> exact .refl _
  | precheck => exact .refl _
  | settle hook bundle now =>
      rcases settle_cases l hook bundle now with ⟨err, heq⟩ | ⟨receipt, debits, -, -, -, heq⟩
      · rw [perform, heq]
        exact hown (extends_fire hook)
      · rw [perform, heq]
        exact hown ((extends_fire hook).trans (extends_commitBundle bundle debits))

end CustodyLedger

end RfqSettlement
