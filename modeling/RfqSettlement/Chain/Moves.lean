/-
  RfqSettlement.Chain.Moves

  What each custody operation does: it is refused and changes nothing, or it makes
  one change that its inversion lemma writes out, with every check that let it
  through.
-/

import RfqSettlement.Chain.Validation
import RfqSettlement.Lib.ListSum

namespace RfqSettlement

namespace CustodyLedger

variable {l l' : CustodyLedger} {a account amount now id contract : Nat} {b : Balance}
  {f : Balance → Balance} {outcome : Outcome}

-- ============================================================================
-- Accounts
-- ============================================================================

theorem account_modifyAccount :
    (l.modifyAccount account f).account a =
      if account = a then (l.account a).map f else l.account a := by
  simp only [modifyAccount, CustodyLedger.account, List.getElem?_modify]
  split
  · rfl
  · simp

@[simp] theorem balance_check (exact : Bool) : (l.check exact).balance a = l.balance a := rfl

@[simp] theorem account_check (exact : Bool) : (l.check exact).account a = l.account a := rfl

@[simp] theorem account_logBalance : (l.logBalance account).account a = l.account a := rfl

/-- What custody holds in all. -/
def held (l : CustodyLedger) : Nat := (l.balances.map Balance.balance).sum

theorem held_modifyAccount (h : l.account account = some b) :
    (l.modifyAccount account f).held + b.balance = l.held + (f b).balance :=
  List.sum_map_modify_add f Balance.balance h

/-- An account holds no more than all accounts do. -/
theorem balance_le_held (h : l.account account = some b) : b.balance ≤ l.held := by
  have := held_modifyAccount (f := fun _ => ⟨0, 0, 0⟩) h
  simp only at this
  omega

theorem modifyAccount_congr {g : Balance → Balance} (h : l.account account = some b)
    (hfg : f b = g b) : l.modifyAccount account f = l.modifyAccount account g := by
  have hsame : l.balances.modify account f = l.balances.modify account g := by
    apply List.ext_getElem?
    intro i
    rw [List.getElem?_modify, List.getElem?_modify]
    by_cases hi : account = i
    · subst hi
      rw [show l.balances[account]? = some b from h]
      simp [hfg]
    · simp [hi]
  rw [modifyAccount, modifyAccount, hsame]

-- ============================================================================
-- Deposits and withdrawals
-- ============================================================================

theorem deposit_cases (l : CustodyLedger) (account amount : Nat) :
    (∃ err, l.deposit account amount = (.error err, l)) ∨
      ∃ b, l.account account = some b ∧ l.deposited + amount ≤ u64Max ∧
        b.balance + amount ≤ u64Max ∧
        l.deposit account amount = (.ok (),
          ({ l.modifyAccount account fun b => { b with balance := b.balance + amount } with
            deposited := l.deposited + amount }).logBalance account) := by
  unfold deposit
  split
  · exact .inl ⟨_, rfl⟩
  next deposited hdeposited =>
  split
  · exact .inl ⟨_, rfl⟩
  next b hb =>
  split
  · exact .inl ⟨_, rfl⟩
  next balance hbalance =>
  obtain ⟨hfits, rfl⟩ := checkedAdd_eq_some.mp hdeposited
  obtain ⟨hfits', rfl⟩ := checkedAdd_eq_some.mp hbalance
  refine .inr ⟨b, hb, hfits, hfits', ?_⟩
  rw [modifyAccount_congr (g := fun b => { b with balance := b.balance + amount }) hb rfl]

theorem requestWithdrawal_cases (l : CustodyLedger) (account amount now : Nat) :
    (∃ err, l.requestWithdrawal account amount now = (.error err, l)) ∨
      ∃ b, l.account account = some b ∧ b.pending = 0 ∧ amount ≤ b.balance ∧
        now + l.withdrawalDelay ≤ u64Max ∧
        l.requestWithdrawal account amount now = (.ok (now + l.withdrawalDelay),
          (l.modifyAccount account fun b =>
            { b with pending := amount, maturesAt := now + l.withdrawalDelay }).logBalance account) := by
  unfold requestWithdrawal
  split
  · exact .inl ⟨_, rfl⟩
  next b hb =>
  split
  · exact .inl ⟨_, rfl⟩
  next hpending =>
  split
  · exact .inl ⟨_, rfl⟩
  next havailable =>
  split
  · exact .inl ⟨_, rfl⟩
  next maturesAt hmatures =>
  obtain ⟨hfits, rfl⟩ := checkedAdd_eq_some.mp hmatures
  have hpending : b.pending = 0 := by simpa using hpending
  refine .inr ⟨b, hb, hpending, ?_, hfits, rfl⟩
  simp only [Balance.available, saturatingSub] at havailable
  omega

theorem executeWithdrawal_cases (l : CustodyLedger) (account now : Nat) :
    (∃ err, l.executeWithdrawal account now = (.error err, l)) ∨
      ∃ b, l.account account = some b ∧ b.pending ≠ 0 ∧ b.maturesAt ≤ now ∧
        l.executeWithdrawal account now = (.ok (min b.pending b.balance),
          ({ (l.check (decide (l.withdrawn + min b.pending b.balance ≤ u64Max))).modifyAccount account
              fun b => { b with balance := b.balance - min b.pending b.balance, pending := 0 } with
            withdrawn := saturatingAdd l.withdrawn (min b.pending b.balance) }).logBalance account) := by
  unfold executeWithdrawal
  split
  · exact .inl ⟨_, rfl⟩
  next b hb =>
  split
  · exact .inl ⟨_, rfl⟩
  next hpending =>
  split
  · exact .inl ⟨_, rfl⟩
  next hmature =>
  refine .inr ⟨b, hb, hpending, Nat.not_lt.mp hmature, ?_⟩
  have hexact : (min b.pending b.balance ≤ b.balance ∧
      l.withdrawn + min b.pending b.balance ≤ u64Max) ↔
        l.withdrawn + min b.pending b.balance ≤ u64Max := by
    simp
  simp only [hexact]
  rw [modifyAccount_congr
    (g := fun b => { b with balance := b.balance - min b.pending b.balance, pending := 0 })
    (show (l.check _).account account = some b from hb) rfl]
  rfl

-- ============================================================================
-- What moving money leaves alone
-- ============================================================================

/-- Everything but the balances, the log and `exact`. -/
structure SameBooks (l l' : CustodyLedger) : Prop where
  escrows : l'.escrows = l.escrows
  maxEscrows : l'.maxEscrows = l.maxEscrows
  resolved : l'.resolved = l.resolved
  pending : l'.pending = l.pending
  withdrawalDelay : l'.withdrawalDelay = l.withdrawalDelay
  deposited : l'.deposited = l.deposited
  withdrawn : l'.withdrawn = l.withdrawn
  accounts : l'.balances.length = l.balances.length
  payouts : l'.payouts = l.payouts

theorem SameBooks.refl (l : CustodyLedger) : SameBooks l l :=
  ⟨rfl, rfl, rfl, rfl, rfl, rfl, rfl, rfl, rfl⟩

theorem SameBooks.trans {l'' : CustodyLedger} (h : SameBooks l l') (h' : SameBooks l' l'') :
    SameBooks l l'' :=
  ⟨h'.escrows.trans h.escrows, h'.maxEscrows.trans h.maxEscrows, h'.resolved.trans h.resolved,
    h'.pending.trans h.pending, h'.withdrawalDelay.trans h.withdrawalDelay,
    h'.deposited.trans h.deposited, h'.withdrawn.trans h.withdrawn, h'.accounts.trans h.accounts,
    h'.payouts.trans h.payouts⟩

theorem sameBooks_modifyAccount : SameBooks l (l.modifyAccount account f) :=
  ⟨rfl, rfl, rfl, rfl, rfl, rfl, rfl, List.length_modify _ _ _, rfl⟩

theorem sameBooks_check (exact : Bool) : SameBooks l (l.check exact) :=
  ⟨rfl, rfl, rfl, rfl, rfl, rfl, rfl, rfl, rfl⟩

theorem sameBooks_creditAll (credits : List (Nat × Nat)) : SameBooks l (l.creditAll credits) := by
  induction credits generalizing l with
  | nil => exact .refl l
  | cons x credits ih => exact ((sameBooks_check _).trans sameBooks_modifyAccount).trans ih

theorem sameBooks_debitAll (debits : Debits) : SameBooks l (l.debitAll debits) := by
  induction debits generalizing l with
  | nil => exact .refl l
  | cons x debits ih => exact ((sameBooks_check _).trans sameBooks_modifyAccount).trans ih

/-- Logging balances changes the log alone. -/
theorem logBalances_eq (accounts : List Nat) :
    ∃ log, l.logBalances accounts = { l with log } := by
  induction accounts generalizing l with
  | nil => exact ⟨l.log, rfl⟩
  | cons account accounts ih =>
      obtain ⟨log, hlog⟩ := ih (l := l.logBalance account)
      exact ⟨log, hlog⟩

theorem sameBooks_logBalances (accounts : List Nat) : SameBooks l (l.logBalances accounts) := by
  obtain ⟨log, hlog⟩ := logBalances_eq (l := l) accounts
  rw [hlog]
  exact ⟨rfl, rfl, rfl, rfl, rfl, rfl, rfl, rfl, rfl⟩

@[simp] theorem balances_logBalances (accounts : List Nat) :
    (l.logBalances accounts).balances = l.balances := by
  obtain ⟨log, hlog⟩ := logBalances_eq (l := l) accounts
  rw [hlog]

@[simp] theorem exact_logBalances (accounts : List Nat) :
    (l.logBalances accounts).exact = l.exact := by
  obtain ⟨log, hlog⟩ := logBalances_eq (l := l) accounts
  rw [hlog]

-- ============================================================================
-- Payouts
-- ============================================================================

/-- The ledger after a payout's credits, before its escrow is marked. -/
def paid (l : CustodyLedger) (e : Escrow) (outcome : Outcome) : CustodyLedger :=
  ((l.check (decide (e.requesterContribution + e.makerContribution ≤ u64Max))).creditAll
    (e.credits outcome)).logBalances ((e.credits outcome).map Prod.fst)

theorem sameBooks_paid (e : Escrow) (outcome : Outcome) : SameBooks l (l.paid e outcome) :=
  ((sameBooks_check _).trans (sameBooks_creditAll _)).trans (sameBooks_logBalances _)

theorem settleEscrow_cases (l : CustodyLedger) (id contract : Nat) (outcome : Outcome) :
    (∃ result, result ≠ .ok true ∧ l.settleEscrow id contract outcome = (result, l)) ∨
      ∃ e, l.escrow id = some e ∧ e.contract = contract ∧ e.isLocked = true ∧
        l.settleEscrow id contract outcome = (.ok true,
          { l.paid e outcome with
            escrows := l.escrows.set id e.markSettled
            payouts := l.payouts ++ [(id, ((e.credits outcome).map Prod.snd).sum)] }) := by
  unfold settleEscrow
  split
  · exact .inl ⟨_, by simp, rfl⟩
  next e he =>
  split
  · exact .inl ⟨_, by simp, rfl⟩
  next hcontract =>
  split
  · exact .inl ⟨_, by simp, rfl⟩
  next hlocked =>
  refine .inr ⟨e, he, by simpa using hcontract, by simpa using hlocked, ?_⟩
  have hsame := sameBooks_paid (l := l) e outcome
  dsimp only
  rw [← hsame.escrows, ← hsame.payouts]
  rfl

-- ============================================================================
-- Hooks
-- ============================================================================

/-- What no ledger operation of a hook touches. -/
structure SameQueue (l l' : CustodyLedger) : Prop where
  maxEscrows : l'.maxEscrows = l.maxEscrows
  resolved : l'.resolved = l.resolved
  pending : l'.pending = l.pending
  withdrawalDelay : l'.withdrawalDelay = l.withdrawalDelay
  accounts : l'.balances.length = l.balances.length

theorem SameQueue.refl (l : CustodyLedger) : SameQueue l l := ⟨rfl, rfl, rfl, rfl, rfl⟩

theorem SameQueue.trans {l'' : CustodyLedger} (h : SameQueue l l') (h' : SameQueue l' l'') :
    SameQueue l l'' :=
  ⟨h'.maxEscrows.trans h.maxEscrows, h'.resolved.trans h.resolved, h'.pending.trans h.pending,
    h'.withdrawalDelay.trans h.withdrawalDelay, h'.accounts.trans h.accounts⟩

theorem SameBooks.queue (h : SameBooks l l') : SameQueue l l' :=
  ⟨h.maxEscrows, h.resolved, h.pending, h.withdrawalDelay, h.accounts⟩

theorem sameQueue_deposit (account amount : Nat) : SameQueue l (l.deposit account amount).2 := by
  rcases deposit_cases l account amount with ⟨_, heq⟩ | ⟨_, -, -, -, heq⟩
  · rw [heq]
    exact .refl l
  · rw [heq]
    exact ⟨rfl, rfl, rfl, rfl, List.length_modify _ _ _⟩

theorem sameQueue_requestWithdrawal (account amount now : Nat) :
    SameQueue l (l.requestWithdrawal account amount now).2 := by
  rcases requestWithdrawal_cases l account amount now with ⟨_, heq⟩ | ⟨_, -, -, -, -, heq⟩
  · rw [heq]
    exact .refl l
  · rw [heq]
    exact ⟨rfl, rfl, rfl, rfl, List.length_modify _ _ _⟩

theorem sameQueue_executeWithdrawal (account now : Nat) :
    SameQueue l (l.executeWithdrawal account now).2 := by
  rcases executeWithdrawal_cases l account now with ⟨_, heq⟩ | ⟨_, -, -, -, heq⟩
  · rw [heq]
    exact .refl l
  · rw [heq]
    exact ⟨rfl, rfl, rfl, rfl, List.length_modify _ _ _⟩

theorem sameQueue_executeMaturedWithdrawals (now : Nat) :
    SameQueue l (l.executeMaturedWithdrawals now) := by
  unfold executeMaturedWithdrawals
  induction List.range l.balances.length generalizing l with
  | nil => exact .refl l
  | cons account accounts ih => exact (sameQueue_executeWithdrawal account now).trans ih

theorem sameQueue_settleEscrow (id contract : Nat) (outcome : Outcome) :
    SameQueue l (l.settleEscrow id contract outcome).2 := by
  rcases settleEscrow_cases l id contract outcome with ⟨_, -, heq⟩ | ⟨e, -, -, -, heq⟩
  · rw [heq]
    exact .refl l
  · rw [heq]
    have h := (sameBooks_paid (l := l) e outcome).queue
    exact ⟨h.maxEscrows, h.resolved, h.pending, h.withdrawalDelay, h.accounts⟩

theorem sameQueue_fire (hook : List LedgerOp) : SameQueue l (l.fire hook) := by
  unfold fire
  induction hook generalizing l with
  | nil => exact .refl l
  | cons op hook ih =>
      refine SameQueue.trans ?_ ih
      cases op with
      | deposit account amount => exact sameQueue_deposit account amount
      | requestWithdrawal account amount now => exact sameQueue_requestWithdrawal account amount now
      | executeWithdrawal account now => exact sameQueue_executeWithdrawal account now
      | executeMaturedWithdrawals now => exact sameQueue_executeMaturedWithdrawals now
      | settleEscrow id contract outcome => exact sameQueue_settleEscrow id contract outcome

-- ============================================================================
-- Settlement and inclusion
-- ============================================================================

theorem settle_cases (l : CustodyLedger) (hook : List LedgerOp) (bundle : Bundle) (now : Nat) :
    (∃ err, l.settle hook bundle now = (.error err, l.fire hook)) ∨
      ∃ receipt debits, (l.fire hook).Validated bundle now debits ∧
        (l.fire hook).escrows.length + bundle.legs.length ≤ l.maxEscrows ∧
        receipt.escrows.length = bundle.legs.length ∧
        l.settle hook bundle now = (.ok receipt, (l.fire hook).commitBundle bundle debits) := by
  unfold settle
  dsimp only
  split
  · exact .inl ⟨_, rfl⟩
  next debits hvalidate =>
  split
  · exact .inl ⟨_, rfl⟩
  next hroom =>
  rw [(sameQueue_fire hook).maxEscrows] at hroom
  exact .inr ⟨_, debits, validate_ok hvalidate, Nat.not_lt.mp hroom, by simp, rfl⟩

/-- The ledger after a submission that reached a terminal answer of its own. -/
def announce (l : CustodyLedger) (nonce : Nonce) (status : TxStatus) : CustodyLedger :=
  { l with
    resolved := Function.update l.resolved nonce (some status)
    log := l.log.append (.settlementResolved nonce status) }

theorem orInsert_of_resolved {nonce : Nonce} {status status' : TxStatus}
    (h : l.resolved nonce = some status) : l.orInsert nonce status' = l := by
  simp [orInsert, h]

theorem status_of_resolved {nonce : Nonce} {status : TxStatus}
    (h : l.resolved nonce = some status) : l.status nonce = status := by
  simp [CustodyLedger.status, h]

theorem announce_of_resolved {nonce : Nonce} {status : TxStatus}
    (h : l.resolved nonce = some status) :
    l.announce nonce status = { l with log := l.log.append (.settlementResolved nonce status) } := by
  rw [announce, ← h, Function.update_eq_self]

/-- What including the oldest submission can come to. -/
inductive Inclusion (l : CustodyLedger) (hook : List LedgerOp) (now : Nat) :
    Option IncludedTx × CustodyLedger → Prop where
  | idle (hpending : l.pending = []) : Inclusion l hook now (none, l)
  | bounced {bundle : Bundle} {pending : List Bundle} {existing : TxStatus}
      (hpending : l.pending = bundle :: pending) (hresolved : l.resolved bundle.nonce = some existing) :
      Inclusion l hook now (some ⟨bundle.nonce, .error .nonceReused, existing⟩, { l with pending })
  | reverted {bundle : Bundle} {pending : List Bundle} {err : SettleError}
      (hpending : l.pending = bundle :: pending) (hresolved : l.resolved bundle.nonce = none)
      (hsettle : ({ l with pending } : CustodyLedger).settle hook bundle now =
        (.error err, ({ l with pending } : CustodyLedger).fire hook)) :
      Inclusion l hook now (some ⟨bundle.nonce, .error err, .reverted⟩,
        (({ l with pending } : CustodyLedger).fire hook).announce bundle.nonce .reverted)
  | settled {bundle : Bundle} {pending : List Bundle} {receipt : SettleReceipt} {debits : Debits}
      (hpending : l.pending = bundle :: pending) (hresolved : l.resolved bundle.nonce = none)
      (hvalidated : (({ l with pending } : CustodyLedger).fire hook).Validated bundle now debits)
      (hroom : (({ l with pending } : CustodyLedger).fire hook).escrows.length + bundle.legs.length ≤
        l.maxEscrows)
      (hreceipt : receipt.escrows.length = bundle.legs.length) :
      Inclusion l hook now (some ⟨bundle.nonce, .ok receipt, .settled⟩,
        ((({ l with pending } : CustodyLedger).fire hook).commitBundle bundle debits).announce
          bundle.nonce .settled)

theorem resolved_commitBundle (bundle : Bundle) (debits : Debits) :
    (l.commitBundle bundle debits).resolved =
      Function.update l.resolved bundle.nonce (some .settled) := by
  have h := ((sameBooks_debitAll (l := l) debits).trans (sameBooks_logBalances
    (debits.map Prod.fst))).resolved
  simp only [commitBundle, h]

theorem escrows_commitBundle (bundle : Bundle) (debits : Debits) :
    (l.commitBundle bundle debits).escrows = l.escrows ++ bundle.escrows := by
  have hbooks := (sameBooks_debitAll (l := l) debits).trans
    (sameBooks_logBalances (debits.map Prod.fst))
  simp only [CustodyLedger.commitBundle, hbooks.escrows, Bundle.escrows]

theorem includeNext_cases (l : CustodyLedger) (hook : List LedgerOp) (now : Nat) :
    Inclusion l hook now (l.includeNext hook now) := by
  unfold includeNext
  split
  next hpending => exact .idle hpending
  next bundle pending hpending =>
  dsimp only
  split
  next existing hresolved => exact .bounced hpending hresolved
  next hresolved =>
  rcases settle_cases { l with pending } hook bundle now with
    ⟨err, heq⟩ | ⟨receipt, debits, hvalidated, hroom, hreceipt, heq⟩
  · have hnone : (({ l with pending } : CustodyLedger).fire hook).resolved bundle.nonce = none := by
      rw [(sameQueue_fire hook).resolved]
      exact hresolved
    rw [heq]
    simp only [orInsert, hnone, status, Function.update_self]
    exact .reverted hpending hresolved heq
  · have hsome : ((({ l with pending } : CustodyLedger).fire hook).commitBundle bundle debits).resolved
        bundle.nonce = some .settled := by
      rw [resolved_commitBundle, Function.update_self]
    have hincluded := Inclusion.settled hpending hresolved hvalidated hroom hreceipt
    rw [announce_of_resolved hsome] at hincluded
    rw [heq]
    dsimp only
    rw [orInsert_of_resolved hsome, status_of_resolved hsome]
    exact hincluded

/-- What every inclusion preserves, including everything preserves. -/
theorem includeRest_induct {P : CustodyLedger → Prop} {hook : List LedgerOp} {clock : Nat → Nat}
    (hstep : ∀ l now, P l → P (l.includeNext hook now).2) (behind : Nat) (h : P l) :
    P (includeRest hook clock behind l).2 := by
  induction behind generalizing l with
  | zero => exact h
  | succ behind ih =>
      have hnext := hstep l (clock behind) h
      rw [includeRest]
      split
      next heq =>
        rw [heq] at hnext
        exact hnext
      next heq =>
        rw [heq] at hnext
        exact ih hnext

/-- One inclusion takes one submission off the queue. -/
theorem pending_includeNext (l : CustodyLedger) (hook : List LedgerOp) (now : Nat) :
    (l.includeNext hook now).2.pending = l.pending.tail := by
  have hcases := includeNext_cases l hook now
  generalize l.includeNext hook now = result at hcases
  cases hcases with
  | idle hpending => simp [hpending]
  | bounced hpending => simp [hpending]
  | reverted hpending => simp [hpending, announce, (sameQueue_fire hook).pending]
  | @settled bundle pending receipt debits hpending _ _ _ _ =>
      have hbooks := (sameBooks_debitAll (l := ({ l with pending } : CustodyLedger).fire hook)
        debits).trans (sameBooks_logBalances (debits.map Prod.fst))
      simp [hpending, announce, commitBundle, hbooks.pending, (sameQueue_fire hook).pending]

/-- No inclusion opens an account. -/
theorem accounts_includeNext (l : CustodyLedger) (hook : List LedgerOp) (now : Nat) :
    (l.includeNext hook now).2.balances.length = l.balances.length := by
  have hcases := includeNext_cases l hook now
  generalize l.includeNext hook now = result at hcases
  cases hcases with
  | idle => rfl
  | bounced => rfl
  | @reverted bundle pending => exact (sameQueue_fire (l := { l with pending }) hook).accounts
  | @settled bundle pending receipt debits =>
      have hbooks := (sameBooks_debitAll (l := ({ l with pending } : CustodyLedger).fire hook)
        debits).trans (sameBooks_logBalances (debits.map Prod.fst))
      exact hbooks.accounts.trans (sameQueue_fire (l := { l with pending }) hook).accounts

end CustodyLedger

end RfqSettlement
