/-
  RfqSettlement.Chain.Conservation

  No operation of custody creates or destroys money.

  The invariant is `Conserved`: what accounts hold, what locked escrows hold and
  what was withdrawn add up to what was deposited.  Deposits are the only checked
  sum, and they bound every other one, so no saturating operation ever saturates.
-/

import RfqSettlement.Chain.Moves
import RfqSettlement.Chain.Operations
import Mathlib.Algebra.Order.BigOperators.Group.List
import Mathlib.Algebra.Order.Group.Nat
import Mathlib.Logic.Relation

namespace RfqSettlement

namespace CustodyLedger

variable {l l' : CustodyLedger} {a account amount now id contract : Nat} {b : Balance} {e : Escrow}
  {outcome : Outcome} {bundle : Bundle}

/-- The notionals of the locked escrows. -/
def locked (l : CustodyLedger) : Nat :=
  (l.escrows.map fun e => if e.isLocked then e.notional else 0).sum

/-- The two tables agree on every account. -/
structure Conserved (l : CustodyLedger) : Prop where
  sum : l.held + l.locked + l.withdrawn = l.deposited
  fits : l.deposited ≤ u64Max
  exact : l.exact = true
  parties : ∀ e ∈ l.escrows, e.requester < l.balances.length ∧ e.maker < l.balances.length
  stakes : ∀ e ∈ l.escrows, e.stake ≤ u64Max

theorem notional_eq_stake (h : e.stake ≤ u64Max) : e.notional = e.stake := by
  unfold Escrow.stake at h ⊢
  unfold Escrow.notional saturatingAdd
  omega

-- ============================================================================
-- Credits and debits
-- ============================================================================

theorem isSome_account_iff : (l.account a).isSome ↔ a < l.balances.length := by
  simp [CustodyLedger.account]

theorem balance_modifyAccount {f : Balance → Balance} (h : l.account account = some b) :
    (l.modifyAccount account f).balance a =
      if account = a then (f b).balance else l.balance a := by
  rw [balance, account_modifyAccount]
  split
  next heq =>
    subst heq
    simp [h]
  · rfl

theorem check_true : l.check true = l := by
  simp [check]

/-- A credit that fits is exact. -/
theorem credit_eq (amount : Nat) (hb : l.account account = some b) (hfits : b.balance + amount ≤ u64Max) :
    l.credit account amount =
      l.modifyAccount account fun b => { b with balance := b.balance + amount } := by
  have hsat : saturatingAdd b.balance amount = b.balance + amount := by
    unfold saturatingAdd
    omega
  rw [credit, hb, Option.all_some, decide_eq_true hfits, check_true]
  exact modifyAccount_congr hb (by rw [hsat])

/-- A debit the account covers is exact. -/
theorem debit_eq (hb : l.account account = some b) (hle : amount ≤ b.balance) :
    l.debit account amount =
      l.modifyAccount account fun b => { b with balance := b.balance - amount } := by
  rw [debit, hb, Option.all_some, decide_eq_true hle, check_true]
  rfl

/-- Crediting accounts that exist, with amounts that fit all together. -/
theorem creditAll_spec (credits : Debits) (haccounts : ∀ x ∈ credits, x.1 < l.balances.length)
    (hfits : l.held + credits.total ≤ u64Max) :
    (l.creditAll credits).held = l.held + credits.total ∧
      (l.creditAll credits).exact = l.exact ∧
      ∀ a, (l.creditAll credits).balance a = l.balance a + credits.of a := by
  induction credits generalizing l with
  | nil => exact ⟨rfl, rfl, fun _ => rfl⟩
  | cons x credits ih =>
      obtain ⟨account, amount⟩ := x
      simp only [Debits.total, List.map_cons, List.sum_cons] at hfits
      obtain ⟨b, hb⟩ := Option.isSome_iff_exists.mp
        (isSome_account_iff.mpr (haccounts (account, amount) (by simp)))
      have hle := balance_le_held hb
      have hcredit := credit_eq amount hb (by omega)
      have hheld : (l.credit account amount).held + b.balance = l.held + (b.balance + amount) := by
        rw [hcredit]
        exact held_modifyAccount hb
      have hrest := ih (l := l.credit account amount)
        (fun x hx => by
          rw [hcredit, modifyAccount, List.length_modify]
          exact haccounts x (by simp [hx]))
        (by simp only [Debits.total]; omega)
      refine ⟨?_, ?_, fun a => ?_⟩
      · have := hrest.1
        simp only [creditAll, Debits.total, List.foldl_cons, List.map_cons, List.sum_cons] at this ⊢
        omega
      · refine Eq.trans hrest.2.1 ?_
        rw [hcredit]
        rfl
      · have := hrest.2.2 a
        rw [hcredit, balance_modifyAccount hb] at this
        simp only [creditAll, Debits.of, List.foldl_cons, List.map_cons, List.sum_cons] at this ⊢
        rw [hcredit, this]
        split
        next heq =>
          subst heq
          rw [balance_of_account hb]
          omega
        · omega

/-- Debiting different accounts, each for what it covers. -/
theorem debitAll_spec {debits : Debits} (hnodup : debits.accounts.Nodup)
    (hcovered : ∀ x ∈ debits, ∃ b, l.account x.1 = some b ∧ x.2 ≤ b.balance) :
    (l.debitAll debits).held + debits.total = l.held ∧
      (l.debitAll debits).exact = l.exact ∧
      ∀ a, (l.debitAll debits).balance a + debits.of a = l.balance a := by
  induction debits generalizing l with
  | nil => exact ⟨rfl, rfl, fun _ => rfl⟩
  | cons x debits ih =>
      obtain ⟨account, amount⟩ := x
      obtain ⟨hnot, hnodup⟩ := List.nodup_cons.mp hnodup
      obtain ⟨b, hb, hle⟩ : ∃ b, l.account account = some b ∧ amount ≤ b.balance :=
        hcovered (account, amount) (by simp)
      have hdebit := debit_eq hb hle
      have hheld : (l.debit account amount).held + b.balance = l.held + (b.balance - amount) := by
        rw [hdebit]
        exact held_modifyAccount hb
      have hrest := ih (l := l.debit account amount) hnodup fun x hx => by
        have hne : account ≠ x.1 := fun heq =>
          hnot (List.mem_map.mpr ⟨x, hx, heq.symm⟩)
        rw [hdebit, account_modifyAccount, if_neg hne]
        exact hcovered x (by simp [hx])
      refine ⟨?_, ?_, fun a => ?_⟩
      · have := hrest.1
        simp only [debitAll, Debits.total, List.foldl_cons, List.map_cons, List.sum_cons] at this ⊢
        omega
      · refine Eq.trans hrest.2.1 ?_
        rw [hdebit]
        rfl
      · have := hrest.2.2 a
        rw [hdebit, balance_modifyAccount hb] at this
        simp only [debitAll, Debits.of, List.foldl_cons, List.map_cons, List.sum_cons] at this ⊢
        rw [hdebit]
        split
        next heq =>
          subst heq
          rw [if_pos rfl] at this
          rw [balance_of_account hb]
          omega
        next hne =>
          rw [if_neg hne] at this
          omega

-- ============================================================================
-- Every operation conserves
-- ============================================================================

theorem conserved_new (withdrawalDelay maxAccounts maxEscrows : Nat) :
    (new withdrawalDelay maxAccounts maxEscrows).Conserved := by
  refine ⟨?_, Nat.zero_le _, rfl, by simp [new], by simp [new]⟩
  simp [new, held, locked]

theorem Conserved.held_le (h : l.Conserved) : l.held + l.locked + l.withdrawn ≤ u64Max := by
  rw [h.sum]
  exact h.fits

theorem Conserved.deposit (h : l.Conserved) (account amount : Nat) :
    (l.deposit account amount).2.Conserved := by
  rcases deposit_cases l account amount with ⟨_, heq⟩ | ⟨b, hb, hfits, -, heq⟩
  · rw [heq]
    exact h
  · rw [heq]
    have hheld : (l.modifyAccount account fun b => { b with balance := b.balance + amount }).held +
        b.balance = l.held + (b.balance + amount) := held_modifyAccount hb
    refine ⟨?_, hfits, h.exact, ?_, h.stakes⟩
    · show (l.modifyAccount account _).held + l.locked + l.withdrawn = l.deposited + amount
      have := h.sum
      omega
    · intro e he
      simp only [logBalance, modifyAccount, List.length_modify]
      exact h.parties e he

theorem Conserved.requestWithdrawal (h : l.Conserved) (account amount now : Nat) :
    (l.requestWithdrawal account amount now).2.Conserved := by
  rcases requestWithdrawal_cases l account amount now with ⟨_, heq⟩ | ⟨b, hb, -, -, -, heq⟩
  · rw [heq]
    exact h
  · rw [heq]
    have hheld : (l.modifyAccount account fun b =>
        { b with pending := amount, maturesAt := now + l.withdrawalDelay }).held + b.balance =
          l.held + b.balance := held_modifyAccount hb
    refine ⟨?_, h.fits, h.exact, ?_, h.stakes⟩
    · show (l.modifyAccount account _).held + l.locked + l.withdrawn = l.deposited
      have := h.sum
      omega
    · intro e he
      simp only [logBalance, modifyAccount, List.length_modify]
      exact h.parties e he

theorem Conserved.executeWithdrawal (h : l.Conserved) (account now : Nat) :
    (l.executeWithdrawal account now).2.Conserved := by
  rcases executeWithdrawal_cases l account now with ⟨_, heq⟩ | ⟨b, hb, -, -, heq⟩
  · rw [heq]
    exact h
  · rw [heq]
    have hheld : (l.modifyAccount account fun b =>
        { b with balance := b.balance - min b.pending b.balance, pending := 0 }).held + b.balance =
          l.held + (b.balance - min b.pending b.balance) := held_modifyAccount hb
    have hle := balance_le_held hb
    have hmin : min b.pending b.balance ≤ b.balance := Nat.min_le_right _ _
    have hall := h.held_le
    have hexact : l.withdrawn + min b.pending b.balance ≤ u64Max := by omega
    have hsat : saturatingAdd l.withdrawn (min b.pending b.balance) =
        l.withdrawn + min b.pending b.balance := by
      unfold saturatingAdd
      omega
    rw [decide_eq_true hexact, check_true, hsat]
    refine ⟨?_, h.fits, h.exact, ?_, h.stakes⟩
    · show (l.modifyAccount account _).held + l.locked + (l.withdrawn + _) = l.deposited
      have := h.sum
      omega
    · intro e he
      simp only [logBalance, modifyAccount, List.length_modify]
      exact h.parties e he

theorem Conserved.executeMaturedWithdrawals (h : l.Conserved) (now : Nat) :
    (l.executeMaturedWithdrawals now).Conserved := by
  unfold CustodyLedger.executeMaturedWithdrawals
  induction List.range l.balances.length generalizing l with
  | nil => exact h
  | cons account accounts ih => exact ih (h.executeWithdrawal account now)

theorem credits_total (h : e.stake ≤ u64Max) : Debits.total (e.credits outcome) = e.stake := by
  unfold Escrow.credits
  split <;> simp [Debits.total, notional_eq_stake h, Escrow.stake]

theorem credits_accounts {x : Nat × Nat} (hx : x ∈ e.credits outcome) :
    x.1 = e.requester ∨ x.1 = e.maker := by
  unfold Escrow.credits at hx
  split at hx
  all_goals
    simp only [List.mem_cons, List.not_mem_nil, or_false] at hx
    rcases hx with rfl | rfl <;> simp

/-- Marking a locked escrow settled takes its stake out of what is locked. -/
theorem locked_markSettled (he : l.escrow id = some e) (hlocked : e.isLocked = true)
    (hstake : e.stake ≤ u64Max) :
    ({ l with escrows := l.escrows.set id e.markSettled } : CustodyLedger).locked + e.stake =
      l.locked := by
  have hset := List.sum_map_set_add e.markSettled (fun e => if e.isLocked then e.notional else 0) he
  have hsettled : e.markSettled.isLocked = false := rfl
  simp only [hlocked, hsettled, if_true, Bool.false_eq_true, if_false, notional_eq_stake hstake] at hset
  exact hset

/-- One payout, exactly: the stake of its escrow goes to the accounts it credits. -/
theorem Conserved.paid (h : l.Conserved) (he : l.escrow id = some e) (hlocked : e.isLocked = true)
    (outcome : Outcome) :
    (l.paid e outcome).held = l.held + e.stake ∧ (l.paid e outcome).exact = true ∧
      ∀ a, (l.paid e outcome).balance a = l.balance a + Debits.of (e.credits outcome) a := by
  have hmem : e ∈ l.escrows := List.mem_of_getElem? he
  have hstake := h.stakes e hmem
  have hlocked := locked_markSettled he hlocked hstake
  have hall := h.held_le
  obtain ⟨hheld, hexact, hbalance⟩ := creditAll_spec (l := l) (e.credits outcome)
    (fun x hx => by
      rcases credits_accounts hx with heq | heq
      · exact heq ▸ (h.parties e hmem).1
      · exact heq ▸ (h.parties e hmem).2)
    (by rw [credits_total hstake]; omega)
  rw [credits_total hstake] at hheld
  have hcheck : l.check (decide (e.requesterContribution + e.makerContribution ≤ u64Max)) = l := by
    rw [decide_eq_true (show e.requesterContribution + e.makerContribution ≤ u64Max from hstake),
      check_true]
  rw [CustodyLedger.paid, hcheck]
  refine ⟨?_, ?_, fun a => ?_⟩
  · rw [held, balances_logBalances]
    exact hheld
  · rw [exact_logBalances, hexact]
    exact h.exact
  · rw [balance, CustodyLedger.account, balances_logBalances]
    exact hbalance a

theorem Conserved.settleEscrow (h : l.Conserved) (id contract : Nat) (outcome : Outcome) :
    (l.settleEscrow id contract outcome).2.Conserved := by
  rcases settleEscrow_cases l id contract outcome with ⟨_, -, heq⟩ | ⟨e, he, -, hlocked, heq⟩
  · rw [heq]
    exact h
  · rw [heq]
    have hstake := h.stakes e (List.mem_of_getElem? he)
    obtain ⟨hheld, hexact, -⟩ := h.paid he hlocked outcome
    have hmarked := locked_markSettled he hlocked hstake
    have hbooks := sameBooks_paid (l := l) e outcome
    have hescrow : ∀ x ∈ l.escrows.set id e.markSettled, ∃ y ∈ l.escrows,
        x.requester = y.requester ∧ x.maker = y.maker ∧ x.stake = y.stake := by
      intro x hx
      rcases List.mem_or_eq_of_mem_set hx with hx | rfl
      · exact ⟨x, hx, rfl, rfl, rfl⟩
      · exact ⟨e, List.mem_of_getElem? he, rfl, rfl, rfl⟩
    refine ⟨?_, ?_, hexact, fun x hx => ?_, fun x hx => ?_⟩
    · have hsum := h.sum
      show (l.paid e outcome).held +
        ({ l with escrows := l.escrows.set id e.markSettled } : CustodyLedger).locked +
          (l.paid e outcome).withdrawn = (l.paid e outcome).deposited
      rw [hbooks.withdrawn, hbooks.deposited]
      omega
    · exact hbooks.deposited ▸ h.fits
    · obtain ⟨y, hy, hr, hm, -⟩ := hescrow x hx
      have hlen : (l.paid e outcome).balances.length = l.balances.length := hbooks.accounts
      show x.requester < (l.paid e outcome).balances.length ∧ _
      rw [hlen, hr, hm]
      exact h.parties y hy
    · obtain ⟨y, hy, -, -, hs⟩ := hescrow x hx
      rw [hs]
      exact h.stakes y hy

theorem Conserved.fire (h : l.Conserved) (hook : List LedgerOp) : (l.fire hook).Conserved := by
  unfold CustodyLedger.fire
  induction hook generalizing l with
  | nil => exact h
  | cons op hook ih =>
      refine ih ?_
      cases op with
      | deposit account amount => exact h.deposit account amount
      | requestWithdrawal account amount now => exact h.requestWithdrawal account amount now
      | executeWithdrawal account now => exact h.executeWithdrawal account now
      | executeMaturedWithdrawals now => exact h.executeMaturedWithdrawals now
      | settleEscrow id contract outcome => exact h.settleEscrow id contract outcome

-- ============================================================================
-- Settlement
-- ============================================================================

/-- A settlement debits every account by exactly what its escrows take. -/
theorem Validated.commitBundle {debits : Debits} (hv : l.Validated bundle now debits) :
    (l.commitBundle bundle debits).held + (bundle.escrows.map Escrow.stake).sum = l.held ∧
      (l.commitBundle bundle debits).exact = l.exact ∧
      ∀ a, (l.commitBundle bundle debits).balance a + bundle.due a = l.balance a := by
  obtain ⟨hheld, hexact, hbalance⟩ := debitAll_spec (hv.legs.nodup List.nodup_nil) hv.covered
  have htotal : debits.total = (bundle.escrows.map Escrow.stake).sum := by
    rw [hv.legs.total]
    simp [Debits.total, Bundle.escrows]
  have hof : ∀ a, debits.of a = bundle.due a := by
    intro a
    rw [hv.legs.of]
    simp [Debits.of, Bundle.due, Bundle.escrows]
  refine ⟨?_, ?_, fun a => ?_⟩
  · rw [← htotal, ← hheld]
    simp only [CustodyLedger.commitBundle, held, balances_logBalances]
  · rw [← hexact]
    simp only [CustodyLedger.commitBundle, exact_logBalances]
  · rw [← hof, ← hbalance a]
    simp only [CustodyLedger.commitBundle, balance, CustodyLedger.account, balances_logBalances]

theorem Validated.parties {debits : Debits} (hv : l.Validated bundle now debits) :
    ∀ e ∈ bundle.escrows, e.requester < l.balances.length ∧ e.maker < l.balances.length := by
  have hknown : ∀ a ∈ debits.accounts, a < l.balances.length := by
    intro a ha
    obtain ⟨x, hx, rfl⟩ := List.mem_map.mp ha
    obtain ⟨b, hb, -⟩ := hv.covered x hx
    exact isSome_account_iff.mp (by rw [hb]; rfl)
  intro e he
  obtain ⟨leg, hleg, rfl⟩ := List.mem_map.mp he
  have hrequester : bundle.requester ∈ debits.accounts :=
    (hv.legs.mem _).mpr (.inr (.inl ⟨hv.nonempty, rfl⟩))
  have hmaker : leg.maker ∈ debits.accounts := (hv.legs.mem _).mpr (.inr (.inr ⟨leg, hleg, rfl⟩))
  exact ⟨hknown _ hrequester, hknown _ hmaker⟩

/-- Freshly formed escrows lock all they took. -/
theorem sum_notional_escrows (h : ∀ e ∈ bundle.escrows, e.stake ≤ u64Max) :
    (bundle.escrows.map fun e => if e.isLocked then e.notional else 0).sum =
      (bundle.escrows.map Escrow.stake).sum := by
  have hsame : ∀ e ∈ bundle.escrows, (if e.isLocked then e.notional else 0) = e.stake := by
    intro e he
    have hlocked : e.isLocked = true := by
      obtain ⟨leg, -, rfl⟩ := List.mem_map.mp he
      rfl
    rw [hlocked, if_pos rfl, notional_eq_stake (h e he)]
  rw [List.map_congr_left hsame]

theorem Conserved.commitBundle {debits : Debits} (h : l.Conserved)
    (hv : l.Validated bundle now debits) : (l.commitBundle bundle debits).Conserved := by
  obtain ⟨hheld, hexact, -⟩ := hv.commitBundle
  have hbooks := (sameBooks_debitAll (l := l) debits).trans
    (sameBooks_logBalances (debits.map Prod.fst))
  have hescrows := escrows_commitBundle (l := l) bundle debits
  have hstakes : ∀ e ∈ bundle.escrows, e.stake ≤ u64Max := by
    intro e he
    have hle : e.stake ≤ (bundle.escrows.map Escrow.stake).sum :=
      List.le_sum_of_mem (List.mem_map_of_mem he)
    have := h.held_le
    omega
  have hlocked : (l.commitBundle bundle debits).locked =
      l.locked + (bundle.escrows.map Escrow.stake).sum := by
    simp only [locked, hescrows, List.map_append, List.sum_append]
    rw [sum_notional_escrows hstakes]
  refine ⟨?_, hbooks.deposited ▸ h.fits, hexact.trans h.exact, fun e he => ?_, fun e he => ?_⟩
  · have hwithdrawn : (l.commitBundle bundle debits).withdrawn = l.withdrawn := hbooks.withdrawn
    have hdeposited : (l.commitBundle bundle debits).deposited = l.deposited := hbooks.deposited
    have := h.sum
    omega
  · have haccounts : (l.commitBundle bundle debits).balances.length = l.balances.length :=
      hbooks.accounts
    rw [haccounts]
    rw [hescrows] at he
    rcases List.mem_append.mp he with he | he
    · exact h.parties e he
    · exact hv.parties e he
  · rw [hescrows] at he
    rcases List.mem_append.mp he with he | he
    · exact h.stakes e he
    · exact hstakes e he

theorem Conserved.settle (h : l.Conserved) (hook : List LedgerOp) (bundle : Bundle) (now : Nat) :
    (l.settle hook bundle now).2.Conserved := by
  rcases settle_cases l hook bundle now with ⟨_, heq⟩ | ⟨_, _, hv, -, -, heq⟩
  · rw [heq]
    exact h.fire hook
  · rw [heq]
    exact (h.fire hook).commitBundle hv

/-- The queue of submissions is no money. -/
theorem Conserved.withPending (h : l.Conserved) (pending : List Bundle) :
    ({ l with pending } : CustodyLedger).Conserved :=
  ⟨h.sum, h.fits, h.exact, h.parties, h.stakes⟩

theorem Conserved.withLog (h : l.Conserved) (log : ChainLog) :
    ({ l with log } : CustodyLedger).Conserved :=
  ⟨h.sum, h.fits, h.exact, h.parties, h.stakes⟩

theorem Conserved.announce (h : l.Conserved) (nonce : Nonce) (status : TxStatus) :
    (l.announce nonce status).Conserved :=
  ⟨h.sum, h.fits, h.exact, h.parties, h.stakes⟩

theorem Conserved.includeNext (h : l.Conserved) (hook : List LedgerOp) (now : Nat) :
    (l.includeNext hook now).2.Conserved := by
  have hcases := includeNext_cases l hook now
  generalize l.includeNext hook now = result at hcases ⊢
  cases hcases with
  | idle => exact h
  | bounced => exact h.withPending _
  | reverted => exact ((h.withPending _).fire hook).announce _ _
  | settled _ _ hv => exact (((h.withPending _).fire hook).commitBundle hv).announce _ _

theorem Conserved.dropNextSubmission (h : l.Conserved) : l.dropNextSubmission.2.Conserved := by
  unfold CustodyLedger.dropNextSubmission
  split
  · exact h
  · exact h.withPending _

theorem Conserved.perform (h : l.Conserved) (op : CustodyOp) : (l.perform op).Conserved := by
  cases op with
  | ledger op => exact h.fire [op]
  | submit bundle => exact h.withPending _
  | includeNext hook now => exact h.includeNext hook now
  | includeAll hook clock =>
      exact includeRest_induct (P := Conserved)
        (fun _ now hl => Conserved.includeNext hl hook now) _ h
  | dropNextSubmission => exact h.dropNextSubmission
  | precheck bundle now => exact h
  | settle hook bundle now => exact h.settle hook bundle now

theorem Conserved.run (h : l.Conserved) (ops : List CustodyOp) : (l.run ops).Conserved := by
  induction ops generalizing l with
  | nil => exact h
  | cons op ops ih => exact ih (h.perform op)

-- ============================================================================
-- Escrows are paid once
-- ============================================================================

/-- What the run so far credited for one escrow, payout by payout. -/
def paidFor (l : CustodyLedger) (id : Nat) : List Nat :=
  (l.payouts.filter fun payout => payout.1 = id).map Prod.snd

/-- What an escrow in this state must have been paid. -/
def owedSoFar : Option Escrow → List Nat
  | some e => if e.isLocked then [] else [e.notional]
  | none => []

/-- Every settled escrow was paid its notional, once; no locked one was paid. -/
def PaidOnce (l : CustodyLedger) : Prop := ∀ id, l.paidFor id = owedSoFar (l.escrow id)

/-- What an operation does to the escrows: it forms some, or pays one out. -/
inductive EscrowMove (l l' : CustodyLedger) : Prop where
  | formed (escrows : List Escrow) (hlocked : ∀ e ∈ escrows, e.isLocked = true)
      (hescrows : l'.escrows = l.escrows ++ escrows) (hpayouts : l'.payouts = l.payouts)
  | paid (id : Nat) (e : Escrow) (outcome : Outcome) (he : l.escrow id = some e)
      (hlocked : e.isLocked = true) (hescrows : l'.escrows = l.escrows.set id e.markSettled)
      (hpayouts : l'.payouts = l.payouts ++ [(id, Debits.total (e.credits outcome))])

theorem EscrowMove.same (hescrows : l'.escrows = l.escrows) (hpayouts : l'.payouts = l.payouts) :
    EscrowMove l l' :=
  .formed [] (by simp) (by simpa using hescrows) hpayouts

theorem EscrowMove.paidOnce (h : EscrowMove l l') (hconserved : l.Conserved) (hl : l.PaidOnce) :
    l'.PaidOnce := by
  intro id
  cases h with
  | formed escrows hlocked hescrows hpayouts =>
      have hpaid : l'.paidFor id = l.paidFor id := by rw [paidFor, paidFor, hpayouts]
      rw [hpaid, hl id, escrow, escrow, hescrows]
      by_cases hid : id < l.escrows.length
      · rw [List.getElem?_append_left hid]
      · rw [List.getElem?_append_right (Nat.not_lt.mp hid),
          List.getElem?_eq_none (Nat.not_lt.mp hid)]
        cases hnew : escrows[id - l.escrows.length]? with
        | none => rfl
        | some e => simp [owedSoFar, hlocked e (List.mem_of_getElem? hnew)]
  | paid id' e outcome he hlocked hescrows hpayouts =>
      have hstake := hconserved.stakes e (List.mem_of_getElem? he)
      have hlt : id' < l.escrows.length := (List.getElem?_eq_some_iff.mp he).1
      have hold := hl id
      rw [paidFor, hpayouts, List.filter_append, List.map_append, escrow, hescrows,
        List.getElem?_set]
      by_cases hid : id' = id
      · subst hid
        have hnone : l.paidFor id' = [] := by
          rw [hold, he]
          simp [owedSoFar, hlocked]
        rw [paidFor] at hnone
        have htotal : Debits.total (e.credits outcome) = e.markSettled.notional := by
          rw [credits_total hstake, ← notional_eq_stake hstake]
          rfl
        simp [hnone, hlt, owedSoFar, htotal, Escrow.isLocked, Escrow.markSettled]
      · rw [paidFor] at hold
        rw [if_neg hid, hold]
        simp [hid, escrow]

/-- An escrow is what it was, or was locked and has been paid out since. -/
def Evolves (l l' : CustodyLedger) : Prop :=
  ∀ id e, l.escrow id = some e →
    l'.escrow id = some e ∨ e.isLocked = true ∧ l'.escrow id = some e.markSettled

theorem EscrowMove.evolves (h : EscrowMove l l') : Evolves l l' := by
  intro id e he
  have hlt : id < l.escrows.length := (List.getElem?_eq_some_iff.mp he).1
  cases h with
  | formed escrows hlocked hescrows hpayouts =>
      left
      rw [escrow, hescrows, List.getElem?_append_left hlt]
      exact he
  | paid id' e' outcome he' hlocked hescrows hpayouts =>
      rw [escrow, hescrows, List.getElem?_set]
      by_cases hid : id' = id
      · subst hid
        obtain rfl := Option.some.inj (he.symm.trans he')
        exact .inr ⟨hlocked, by rw [if_pos rfl, if_pos hlt]⟩
      · exact .inl (by rw [if_neg hid]; exact he)

theorem Evolves.trans {l'' : CustodyLedger} (h : Evolves l l') (h' : Evolves l' l'') :
    Evolves l l'' := by
  intro id e he
  rcases h id e he with hsame | ⟨hlocked, hpaid⟩
  · exact h' id e hsame
  · rcases h' id _ hpaid with hsame | ⟨hlocked', -⟩
    · exact .inr ⟨hlocked, hsame⟩
    · cases hlocked'

/-- Several moves, each from a ledger whose sums are exact. -/
abbrev EscrowMoves : CustodyLedger → CustodyLedger → Prop :=
  Relation.ReflTransGen fun l l' => l.Conserved ∧ EscrowMove l l'

theorem EscrowMoves.paidOnce (h : EscrowMoves l l') (hl : l.PaidOnce) : l'.PaidOnce := by
  induction h with
  | refl => exact hl
  | tail _ hstep ih => exact hstep.2.paidOnce hstep.1 ih

theorem EscrowMoves.evolves (h : EscrowMoves l l') : Evolves l l' := by
  induction h with
  | refl => exact fun _ _ he => .inl he
  | tail _ hstep ih => exact ih.trans hstep.2.evolves

theorem escrowMove_executeWithdrawal (l : CustodyLedger) (account now : Nat) :
    EscrowMove l (l.executeWithdrawal account now).2 := by
  rcases executeWithdrawal_cases l account now with ⟨_, heq⟩ | ⟨_, -, -, -, heq⟩
  all_goals
    rw [heq]
    exact .same rfl rfl

theorem escrowMoves_executeMaturedWithdrawals (h : l.Conserved) (now : Nat) :
    EscrowMoves l (l.executeMaturedWithdrawals now) := by
  unfold executeMaturedWithdrawals
  induction List.range l.balances.length generalizing l with
  | nil => exact .refl
  | cons account accounts ih =>
      exact .head ⟨h, escrowMove_executeWithdrawal l account now⟩ (ih (h.executeWithdrawal account now))

theorem escrowMoves_apply (h : l.Conserved) (op : LedgerOp) : EscrowMoves l (op.apply l) := by
  cases op with
  | deposit account amount =>
      rcases deposit_cases l account amount with ⟨_, heq⟩ | ⟨_, -, -, -, heq⟩
      · rw [LedgerOp.apply, heq]
      · rw [LedgerOp.apply, heq]
        exact .single ⟨h, .same rfl rfl⟩
  | requestWithdrawal account amount now =>
      rcases requestWithdrawal_cases l account amount now with ⟨_, heq⟩ | ⟨_, -, -, -, -, heq⟩
      · rw [LedgerOp.apply, heq]
      · rw [LedgerOp.apply, heq]
        exact .single ⟨h, .same rfl rfl⟩
  | executeWithdrawal account now => exact .single ⟨h, escrowMove_executeWithdrawal l account now⟩
  | executeMaturedWithdrawals now => exact escrowMoves_executeMaturedWithdrawals h now
  | settleEscrow id contract outcome =>
      refine .single ⟨h, ?_⟩
      rcases settleEscrow_cases l id contract outcome with ⟨_, -, heq⟩ | ⟨e, he, -, hlocked, heq⟩
      · rw [LedgerOp.apply, heq]
        exact .same rfl rfl
      · rw [LedgerOp.apply, heq]
        exact .paid id e outcome he hlocked rfl rfl

theorem escrowMoves_fire (h : l.Conserved) (hook : List LedgerOp) : EscrowMoves l (l.fire hook) := by
  induction hook generalizing l with
  | nil => exact .refl
  | cons op hook ih => exact (escrowMoves_apply h op).trans (ih (h.fire [op]))

theorem escrowMove_commitBundle (bundle : Bundle) (debits : Debits) :
    EscrowMove l (l.commitBundle bundle debits) := by
  refine .formed bundle.escrows (fun e he => ?_) (escrows_commitBundle bundle debits) ?_
  · obtain ⟨leg, -, rfl⟩ := List.mem_map.mp he
    rfl
  · exact ((sameBooks_debitAll (l := l) debits).trans
      (sameBooks_logBalances (debits.map Prod.fst))).payouts

theorem escrowMoves_settle (h : l.Conserved) (hook : List LedgerOp) (bundle : Bundle) (now : Nat) :
    EscrowMoves l (l.settle hook bundle now).2 := by
  rcases settle_cases l hook bundle now with ⟨_, heq⟩ | ⟨_, _, -, -, -, heq⟩
  · rw [heq]
    exact escrowMoves_fire h hook
  · rw [heq]
    exact (escrowMoves_fire h hook).tail ⟨h.fire hook, escrowMove_commitBundle bundle _⟩

theorem escrowMoves_includeNext (h : l.Conserved) (hook : List LedgerOp) (now : Nat) :
    EscrowMoves l (l.includeNext hook now).2 := by
  have hcases := includeNext_cases l hook now
  generalize l.includeNext hook now = result at hcases ⊢
  cases hcases with
  | idle => exact .refl
  | bounced => exact .single ⟨h, .same rfl rfl⟩
  | @reverted bundle pending err _ _ _ =>
      have hpopped := h.withPending pending
      exact (Relation.ReflTransGen.head ⟨h, .same rfl rfl⟩ (escrowMoves_fire hpopped hook)).tail
        ⟨hpopped.fire hook, .same rfl rfl⟩
  | @settled bundle pending receipt debits _ _ hv _ _ =>
      have hpopped := h.withPending pending
      have hfired := Relation.ReflTransGen.head ⟨h, .same rfl rfl⟩ (escrowMoves_fire hpopped hook)
      exact (hfired.tail ⟨hpopped.fire hook, escrowMove_commitBundle bundle debits⟩).tail
        ⟨(hpopped.fire hook).commitBundle hv, .same rfl rfl⟩

theorem escrowMoves_perform (h : l.Conserved) (op : CustodyOp) : EscrowMoves l (l.perform op) := by
  cases op with
  | ledger op => exact escrowMoves_apply h op
  | submit bundle => exact .single ⟨h, .same rfl rfl⟩
  | includeNext hook now => exact escrowMoves_includeNext h hook now
  | includeAll hook clock =>
      refine (includeRest_induct (P := fun l' => EscrowMoves l l' ∧ l'.Conserved) ?_ _ ⟨.refl, h⟩).1
      intro l' now hl'
      exact ⟨hl'.1.trans (escrowMoves_includeNext hl'.2 hook now), hl'.2.includeNext hook now⟩
  | dropNextSubmission =>
      refine .single ⟨h, ?_⟩
      simp only [perform, CustodyLedger.dropNextSubmission]
      split <;> exact .same rfl rfl
  | precheck bundle now => exact .refl
  | settle hook bundle now => exact escrowMoves_settle h hook bundle now

theorem escrowMoves_run (h : l.Conserved) (ops : List CustodyOp) : EscrowMoves l (l.run ops) := by
  induction ops generalizing l with
  | nil => exact .refl
  | cons op ops ih => exact (escrowMoves_perform h op).trans (ih (h.perform op))

-- ============================================================================
-- Over any run
-- ============================================================================

/-- What every payout does: it credits an escrow's notional, exactly, or does nothing. -/
theorem Conserved.payout (h : l.Conserved) (id contract : Nat) (outcome : Outcome) :
    (∃ e, l.escrow id = some e ∧ (l.settleEscrow id contract outcome).1 = .ok true ∧
        Debits.total (e.credits outcome) = e.notional ∧
        ∀ a, (l.settleEscrow id contract outcome).2.balance a =
          l.balance a + Debits.of (e.credits outcome) a) ∨
      (l.settleEscrow id contract outcome).2 = l := by
  rcases settleEscrow_cases l id contract outcome with ⟨_, -, heq⟩ | ⟨e, he, -, hlocked, heq⟩
  · exact .inr (by rw [heq])
  · have hstake := h.stakes e (List.mem_of_getElem? he)
    refine .inl ⟨e, he, by rw [heq], ?_, fun a => ?_⟩
    · rw [credits_total hstake, notional_eq_stake hstake]
    · rw [heq]
      exact (h.paid he hlocked outcome).2.2 a

/-- What every settlement does: it debits each account by exactly what the escrows it
    forms took, or leaves what its hook left. -/
theorem Conserved.settlement (l : CustodyLedger) (hook : List LedgerOp) (bundle : Bundle)
    (now : Nat) :
    (∃ receipt, (l.settle hook bundle now).1 = .ok receipt ∧
        (l.settle hook bundle now).2.escrows = (l.fire hook).escrows ++ bundle.escrows ∧
        ∀ a, (l.settle hook bundle now).2.balance a + bundle.due a = (l.fire hook).balance a) ∨
      ∃ err, l.settle hook bundle now = (.error err, l.fire hook) := by
  rcases settle_cases l hook bundle now with ⟨err, heq⟩ | ⟨receipt, debits, hv, -, -, heq⟩
  · exact .inr ⟨err, heq⟩
  · refine .inl ⟨receipt, by rw [heq], ?_, ?_⟩
    · rw [heq]
      exact escrows_commitBundle bundle debits
    · rw [heq]
      exact hv.commitBundle.2.2

/-- After any run: the sums agree exactly and nothing ever saturated, every escrow was paid
    its notional once or not at all and never changes otherwise, every settlement debits what
    its escrows took, and a revert changes nothing but what its hook did. -/
theorem conservation (withdrawalDelay maxAccounts maxEscrows : Nat) (ops : List CustodyOp) :
    let l := (new withdrawalDelay maxAccounts maxEscrows).run ops
    l.held + l.locked + l.withdrawn = l.deposited ∧ l.exact = true ∧
      (∀ e ∈ l.escrows, e.notional = e.requesterContribution + e.makerContribution) ∧
      (∀ id, l.paidFor id = owedSoFar (l.escrow id)) ∧
      (∀ ops', Evolves l (l.run ops')) ∧
      (∀ id contract outcome,
        (∃ e, l.escrow id = some e ∧ (l.settleEscrow id contract outcome).1 = .ok true ∧
          Debits.total (e.credits outcome) = e.notional ∧
          ∀ a, (l.settleEscrow id contract outcome).2.balance a =
            l.balance a + Debits.of (e.credits outcome) a) ∨
        (l.settleEscrow id contract outcome).2 = l) ∧
      ∀ hook bundle now,
        (∃ receipt, (l.settle hook bundle now).1 = .ok receipt ∧
          (l.settle hook bundle now).2.escrows = (l.fire hook).escrows ++ bundle.escrows ∧
          ∀ a, (l.settle hook bundle now).2.balance a + bundle.due a = (l.fire hook).balance a) ∨
        ∃ err, l.settle hook bundle now = (.error err, l.fire hook) := by
  intro l
  have hnew := conserved_new withdrawalDelay maxAccounts maxEscrows
  have h : l.Conserved := hnew.run ops
  have hpaid : l.PaidOnce := by
    refine (escrowMoves_run hnew ops).paidOnce fun id => ?_
    simp [new, paidFor, escrow, owedSoFar]
  exact ⟨h.sum, h.exact, fun e he => notional_eq_stake (h.stakes e he), hpaid,
    fun ops' => (escrowMoves_run h ops').evolves, h.payout, Conserved.settlement l⟩

end CustodyLedger

end RfqSettlement
