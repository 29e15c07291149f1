/-
  RfqSettlement.Chain.Unwinding

  A bundle whose escrows are all paid `Void` leaves no trace in the balances.

  Two runs are compared: one that settles the bundle, and one that does the same without
  it, where later escrows stand `count` places earlier.  `Beside` ties them together: the
  run with the bundle has its escrows in between, and every account is short by what it
  has put into those still locked.
-/

import RfqSettlement.Chain.Conservation

namespace RfqSettlement

-- ============================================================================
-- The two runs
-- ============================================================================

/-- The operation in the run that never formed the `count` escrows from `first` on: their
    payouts are gone, and payouts of later ones name the same escrow. -/
def CustodyOp.without (first count : Nat) : CustodyOp → Option CustodyOp
  | .ledger (.settleEscrow id contract outcome) =>
    if id < first then some (.ledger (.settleEscrow id contract outcome))
    else if id < first + count then none
    else some (.ledger (.settleEscrow (id - count) contract outcome))
  | op => some op

/-- The outcome a side wins on. -/
def Side.outcome : Side → Outcome
  | .yes => .yes
  | .no => .no

/-- What a locked escrow keeps from one account. -/
def Escrow.withheld (account : Nat) (e : Escrow) : Nat :=
  if e.isLocked then e.contributionOf account else 0

namespace CustodyLedger

variable {l l' l₁ : CustodyLedger} {bundle : Bundle} {now a id id' contract first count : Nat}
  {nonce : Nonce} {outcome : Outcome} {e : Escrow} {receipt : SettleReceipt}
  {op : CustodyOp} {ops : List CustodyOp}

/-- What may happen while the escrows of `nonce`, `count` of them from `first` on, are
    unwound: deposits, settlements of other nonces that succeed, payouts of any other
    escrow, and `Void` payouts of these. -/
def Alongside (l : CustodyLedger) (nonce : Nonce) (first count : Nat) : CustodyOp → Prop
  | .ledger (.deposit _ _) => True
  | .ledger (.settleEscrow id _ outcome) => first ≤ id → id < first + count → outcome = .void
  | .settle hook bundle now =>
    hook = [] ∧ bundle.nonce ≠ nonce ∧ ∃ receipt, (l.settle [] bundle now).1 = .ok receipt
  | _ => False

/-- Each operation of a run finds the ledger as `Alongside` asks. -/
def Interleaves (nonce : Nonce) (first count : Nat) : CustodyLedger → List CustodyOp → Prop
  | _, [] => True
  | l, op :: ops =>
    l.Alongside nonce first count op ∧ Interleaves nonce first count (l.perform op) ops

-- ============================================================================
-- What one payout and one settlement come to
-- ============================================================================

/-- What neither a payout nor a settlement touches. -/
structure SameBounds (l l₁ : CustodyLedger) : Prop where
  maxEscrows : l₁.maxEscrows = l.maxEscrows
  deposited : l₁.deposited = l.deposited
  accounts : l₁.balances.length = l.balances.length

theorem SameBounds.beside {l₂ : CustodyLedger} (h : SameBounds l l₁) (h' : SameBounds l' l₂)
    (hbounds : SameBounds l l') : SameBounds l₁ l₂ :=
  ⟨h'.maxEscrows.trans (hbounds.maxEscrows.trans h.maxEscrows.symm),
    h'.deposited.trans (hbounds.deposited.trans h.deposited.symm),
    h'.accounts.trans (hbounds.accounts.trans h.accounts.symm)⟩

/-- A payout went through. -/
structure Pays (l : CustodyLedger) (id : Nat) (outcome : Outcome) (e : Escrow)
    (l₁ : CustodyLedger) : Prop where
  found : l.escrow id = some e
  locked : e.isLocked = true
  escrows : l₁.escrows = l.escrows.set id e.markSettled
  balances : ∀ a, l₁.balance a = l.balance a + Debits.of (e.credits outcome) a
  resolved : l₁.resolved = l.resolved
  bounds : SameBounds l l₁

/-- A settlement went through. -/
structure Forms (l : CustodyLedger) (bundle : Bundle) (l₁ : CustodyLedger) : Prop where
  priced : ∀ leg ∈ bundle.legs, leg.Priced
  escrows : l₁.escrows = l.escrows ++ bundle.escrows
  balances : ∀ a, l₁.balance a + bundle.due a = l.balance a
  resolved : l₁.resolved = Function.update l.resolved bundle.nonce (some .settled)
  bounds : SameBounds l l₁

theorem Conserved.pays (h : l.Conserved) (id contract : Nat) (outcome : Outcome) :
    ((l.settleEscrow id contract outcome).1 ≠ .ok true ∧
        (l.settleEscrow id contract outcome).2 = l) ∨
      ∃ e, (l.settleEscrow id contract outcome).1 = .ok true ∧
        Pays l id outcome e (l.settleEscrow id contract outcome).2 := by
  rcases settleEscrow_cases l id contract outcome with ⟨result, hne, heq⟩ | ⟨e, he, -, hlocked, heq⟩
  · exact .inl (by rw [heq]; exact ⟨hne, rfl⟩)
  · have hbooks := sameBooks_paid (l := l) e outcome
    refine .inr ⟨e, by rw [heq], ?_⟩
    rw [heq]
    exact ⟨he, hlocked, rfl, (h.paid he hlocked outcome).2.2, hbooks.resolved,
      hbooks.maxEscrows, hbooks.deposited, hbooks.accounts⟩

/-- What a payout answers is a matter of the escrow it finds. -/
theorem settleEscrow_answer (h : l.escrow id = l'.escrow id') (contract : Nat)
    (outcome : Outcome) :
    (l.settleEscrow id contract outcome).1 = (l'.settleEscrow id' contract outcome).1 := by
  unfold settleEscrow
  rw [h]
  cases l'.escrow id' with
  | none => rfl
  | some e =>
      dsimp only
      split
      · rfl
      · split <;> rfl

theorem settleEscrow_pays_of_locked (he : l.escrow id = some e) (hlocked : e.isLocked = true)
    (outcome : Outcome) : (l.settleEscrow id e.contract outcome).1 = .ok true := by
  unfold settleEscrow
  rw [he]
  simp [hlocked]

theorem settle_forms (h : (l.settle [] bundle now).1 = .ok receipt) :
    Forms l bundle (l.settle [] bundle now).2 := by
  rcases settle_cases l [] bundle now with ⟨err, heq⟩ | ⟨_, debits, hv, -, -, heq⟩
  · rw [heq] at h
    cases h
  · rw [heq]
    have hbooks := (sameBooks_debitAll (l := l) debits).trans
      (sameBooks_logBalances (debits.map Prod.fst))
    exact ⟨hv.legs.priced, escrows_commitBundle bundle debits, hv.commitBundle.2.2,
      resolved_commitBundle bundle debits, hbooks.maxEscrows, hbooks.deposited, hbooks.accounts⟩

/-- A settlement no hook comes before. -/
theorem settle_nil (l : CustodyLedger) (bundle : Bundle) (now : Nat) :
    l.settle [] bundle now =
      match l.validate bundle now with
      | .error e => (.error e, l)
      | .ok debits =>
        if l.maxEscrows < l.escrows.length + bundle.legs.length then
          (.error .escrowCapacityExhausted, l)
        else
          (.ok ⟨(List.range bundle.legs.length).map fun i => min (l.escrows.length + i) u32Max⟩,
            l.commitBundle bundle debits) := rfl

/-- The checks of a settlement pass wherever accounts hold no less. -/
theorem validate_mono {debits : Debits} (haccounts : l'.balances.length = l.balances.length)
    (hbalances : ∀ a, l.balance a ≤ l'.balance a)
    (hused : l'.nonceUsed bundle.nonce = l.nonceUsed bundle.nonce)
    (h : l.validate bundle now = .ok debits) : l'.validate bundle now = .ok debits := by
  unfold validate at h ⊢
  rw [hused]
  split at h
  · cases h
  next hsome =>
  split at h
  · cases h
  next hfew =>
  split at h
  · cases h
  next hunused =>
  split at h
  · cases h
  next debits' hlegs =>
  split at h
  · cases h
  next hcovered =>
  rw [if_neg hsome, if_neg hfew, if_neg hunused]
  have hcovered' : l'.validateDebits debits' = .ok () := by
    refine validateDebits_ok.mpr fun x hx => ?_
    obtain ⟨b, hb, hle⟩ := validateDebits_ok.mp hcovered x hx
    have hknown : x.1 < l.balances.length := isSome_account_iff.mp (by rw [hb]; rfl)
    obtain ⟨b', hb'⟩ := Option.isSome_iff_exists.mp (isSome_account_iff.mpr (haccounts ▸ hknown))
    refine ⟨b', hb', ?_⟩
    have hmore := hbalances x.1
    rw [balance_of_account hb, balance_of_account hb'] at hmore
    omega
  rw [hcovered']
  exact h

theorem settle_mono (haccounts : l'.balances.length = l.balances.length)
    (hbalances : ∀ a, l.balance a ≤ l'.balance a)
    (hused : l'.nonceUsed bundle.nonce = l.nonceUsed bundle.nonce)
    (hroom : l'.escrows.length ≤ l.escrows.length) (hmax : l'.maxEscrows = l.maxEscrows)
    (h : (l.settle [] bundle now).1 = .ok receipt) :
    ∃ receipt', (l'.settle [] bundle now).1 = .ok receipt' := by
  rw [settle_nil] at h ⊢
  split at h
  · cases h
  next debits hvalidate =>
  by_cases hfull : l.maxEscrows < l.escrows.length + bundle.legs.length
  · rw [if_pos hfull] at h
    cases h
  · rw [validate_mono haccounts hbalances hused hvalidate]
    dsimp only
    rw [if_neg (by omega)]
    exact ⟨_, rfl⟩

-- ============================================================================
-- One run beside the other
-- ============================================================================

/-- `l` has the escrows `own` between those of `l'`, and what they withhold is all that
    its accounts are short of. -/
structure Beside (nonce : Nonce) (earlier own later : List Escrow) (l l' : CustodyLedger) :
    Prop where
  escrows : l.escrows = earlier ++ (own ++ later)
  escrows' : l'.escrows = earlier ++ later
  balances : ∀ a, l.balance a + (own.map (Escrow.withheld a)).sum = l'.balance a
  resolved : ∀ other, other ≠ nonce → l.resolved other = l'.resolved other
  bounds : SameBounds l l'
  conserved : l.Conserved
  conserved' : l'.Conserved

variable {earlier own later : List Escrow}

theorem Beside.escrow_earlier (h : Beside nonce earlier own later l l')
    (hid : id < earlier.length) : l.escrow id = earlier[id]? ∧ l'.escrow id = earlier[id]? := by
  rw [escrow, escrow, h.escrows, h.escrows']
  exact ⟨List.getElem?_append_left hid, List.getElem?_append_left hid⟩

theorem Beside.escrow_own (h : Beside nonce earlier own later l l') (hfirst : earlier.length ≤ id)
    (hid : id < earlier.length + own.length) : l.escrow id = own[id - earlier.length]? := by
  rw [escrow, h.escrows, List.getElem?_append_right hfirst]
  exact List.getElem?_append_left (by omega)

theorem Beside.escrow_later (h : Beside nonce earlier own later l l')
    (hid : earlier.length + own.length ≤ id) :
    l.escrow id = later[id - earlier.length - own.length]? ∧
      l'.escrow (id - own.length) = later[id - earlier.length - own.length]? := by
  rw [escrow, escrow, h.escrows, h.escrows', List.getElem?_append_right (by omega),
    List.getElem?_append_right (by omega), List.getElem?_append_right (by omega)]
  refine ⟨rfl, ?_⟩
  rw [show id - own.length - earlier.length = id - earlier.length - own.length by omega]

/-- The same escrow paid in both runs. -/
theorem Beside.pays (h : Beside nonce earlier own later l l') {l₂ : CustodyLedger}
    {earlier' later' : List Escrow} (hpays : Pays l id outcome e l₁)
    (hpays' : Pays l' id' outcome e l₂) (hl : l₁.Conserved) (hl' : l₂.Conserved)
    (hset : l.escrows.set id e.markSettled = earlier' ++ (own ++ later'))
    (hset' : l'.escrows.set id' e.markSettled = earlier' ++ later') :
    Beside nonce earlier' own later' l₁ l₂ where
  escrows := hpays.escrows.trans hset
  escrows' := hpays'.escrows.trans hset'
  balances a := by
    rw [hpays.balances, hpays'.balances, ← h.balances]
    omega
  resolved other hne := by
    rw [hpays.resolved, hpays'.resolved]
    exact h.resolved other hne
  bounds := hpays.bounds.beside hpays'.bounds h.bounds
  conserved := hl
  conserved' := hl'

-- ============================================================================
-- Deposits beside
-- ============================================================================

/-- What a deposit adds: all of it, or nothing. -/
def accepted (l : CustodyLedger) (account amount : Nat) : Nat :=
  if account < l.balances.length ∧ l.deposited + amount ≤ u64Max then amount else 0

/-- Conservation leaves a deposit two reasons to fail. -/
theorem Conserved.deposit_ok (h : l.Conserved) {account amount : Nat}
    (hknown : account < l.balances.length) (hfits : l.deposited + amount ≤ u64Max) :
    (l.deposit account amount).1 = .ok () := by
  obtain ⟨b, hb⟩ := Option.isSome_iff_exists.mp (isSome_account_iff.mpr hknown)
  have hheld := balance_le_held hb
  have hsum := h.sum
  have hfits' : b.balance + amount ≤ u64Max := by omega
  rw [CustodyLedger.deposit, checkedAdd_eq_some.mpr ⟨hfits, rfl⟩]
  dsimp only
  rw [hb]
  dsimp only
  rw [checkedAdd_eq_some.mpr ⟨hfits', rfl⟩]

theorem Conserved.deposit_spec (h : l.Conserved) (account amount : Nat) :
    (∀ a, (l.deposit account amount).2.balance a =
        l.balance a + if account = a then l.accepted account amount else 0) ∧
      (l.deposit account amount).2.deposited = l.deposited + l.accepted account amount ∧
      (l.deposit account amount).2.escrows = l.escrows := by
  rcases deposit_cases l account amount with ⟨err, heq⟩ | ⟨b, hb, hfits, -, heq⟩
  · have hzero : l.accepted account amount = 0 := by
      refine if_neg fun ⟨hknown, hfits⟩ => ?_
      have hok := h.deposit_ok hknown hfits
      rw [heq] at hok
      cases hok
    rw [heq, hzero]
    refine ⟨fun a => ?_, rfl, rfl⟩
    rw [ite_self]
    rfl
  · have hall : l.accepted account amount = amount :=
      if_pos ⟨isSome_account_iff.mp (by rw [hb]; rfl), hfits⟩
    rw [heq, hall]
    refine ⟨fun a => ?_, rfl, rfl⟩
    refine (balance_modifyAccount hb).trans ?_
    split
    next hsame =>
      subst hsame
      rw [balance_of_account hb]
    · rfl

theorem Beside.deposit (h : Beside nonce earlier own later l l') (account amount : Nat) :
    Beside nonce earlier own later (l.deposit account amount).2 (l'.deposit account amount).2 := by
  obtain ⟨hbalances, hdeposited, hescrows⟩ := h.conserved.deposit_spec account amount
  obtain ⟨hbalances', hdeposited', hescrows'⟩ := h.conserved'.deposit_spec account amount
  have hqueue := sameQueue_deposit (l := l) account amount
  have hqueue' := sameQueue_deposit (l := l') account amount
  have hsame : l'.accepted account amount = l.accepted account amount := by
    rw [accepted, accepted, h.bounds.accounts, h.bounds.deposited]
  refine ⟨hescrows.trans h.escrows, hescrows'.trans h.escrows', fun a => ?_, fun other hne => ?_,
    ⟨?_, ?_, ?_⟩, h.conserved.deposit account amount, h.conserved'.deposit account amount⟩
  · have := h.balances a
    rw [hbalances, hbalances', hsame]
    omega
  · rw [hqueue.resolved, hqueue'.resolved]
    exact h.resolved other hne
  · rw [hqueue.maxEscrows, hqueue'.maxEscrows]
    exact h.bounds.maxEscrows
  · rw [hdeposited, hdeposited', hsame, h.bounds.deposited]
  · rw [hqueue.accounts, hqueue'.accounts]
    exact h.bounds.accounts

-- ============================================================================
-- Settlements beside
-- ============================================================================

/-- A settlement that succeeds with the bundle's escrows still locked succeeds without
    them. -/
theorem Beside.settle_ok (h : Beside nonce earlier own later l l') {receipt : SettleReceipt}
    (hne : bundle.nonce ≠ nonce) (hok : (l.settle [] bundle now).1 = .ok receipt) :
    ∃ receipt', (l'.settle [] bundle now).1 = .ok receipt' := by
  refine settle_mono h.bounds.accounts (fun a => ?_) ?_ ?_ h.bounds.maxEscrows hok
  · rw [← h.balances a]
    exact Nat.le_add_right _ _
  · rw [nonceUsed, nonceUsed, h.resolved _ hne]
  · rw [h.escrows, h.escrows']
    simp only [List.length_append]
    omega

theorem Beside.settle (h : Beside nonce earlier own later l l') {receipt : SettleReceipt}
    (hne : bundle.nonce ≠ nonce) (hok : (l.settle [] bundle now).1 = .ok receipt) :
    Beside nonce earlier own (later ++ bundle.escrows) (l.settle [] bundle now).2
      (l'.settle [] bundle now).2 := by
  obtain ⟨receipt', hok'⟩ := h.settle_ok hne hok
  have hforms := settle_forms hok
  have hforms' := settle_forms hok'
  refine ⟨?_, ?_, fun a => ?_, fun other hother => ?_, hforms.bounds.beside hforms'.bounds h.bounds,
    h.conserved.settle [] bundle now, h.conserved'.settle [] bundle now⟩
  · rw [hforms.escrows, h.escrows]
    simp only [List.append_assoc]
  · rw [hforms'.escrows, h.escrows', List.append_assoc]
  · have := hforms.balances a
    have := hforms'.balances a
    have := h.balances a
    omega
  · rw [hforms.resolved, hforms'.resolved]
    by_cases hsame : other = bundle.nonce
    · rw [hsame, Function.update_self, Function.update_self]
    · rw [Function.update_of_ne hsame, Function.update_of_ne hsame]
      exact h.resolved other hother

-- ============================================================================
-- Payouts beside
-- ============================================================================

/-- Paying the same escrow does the same in both runs, or nothing in either. -/
theorem Beside.payBoth (h : Beside nonce earlier own later l l') (contract : Nat)
    (outcome : Outcome) (hsame : l.escrow id = l'.escrow id') :
    (l.settleEscrow id contract outcome).2 = l ∧ (l'.settleEscrow id' contract outcome).2 = l' ∨
      ∃ e, Pays l id outcome e (l.settleEscrow id contract outcome).2 ∧
        Pays l' id' outcome e (l'.settleEscrow id' contract outcome).2 := by
  have hanswer := settleEscrow_answer hsame contract outcome
  rcases h.conserved.pays id contract outcome with ⟨hrefused, heq⟩ | ⟨e, hok, hpays⟩
  · rcases h.conserved'.pays id' contract outcome with ⟨-, heq'⟩ | ⟨_, hok', -⟩
    · exact .inl ⟨heq, heq'⟩
    · exact absurd (hanswer.trans hok') hrefused
  · rcases h.conserved'.pays id' contract outcome with ⟨hrefused', -⟩ | ⟨e', -, hpays'⟩
    · exact absurd (hanswer.symm.trans hok) hrefused'
    · have hfound : some e' = some e := by
        rw [← hpays'.found, ← hpays.found, hsame]
      obtain rfl := Option.some.inj hfound
      exact .inr ⟨e', hpays, hpays'⟩

theorem Beside.payEarlier (h : Beside nonce earlier own later l l') (contract : Nat)
    (outcome : Outcome) (hid : id < earlier.length) :
    ∃ earlier', earlier'.length = earlier.length ∧
      Beside nonce earlier' own later (l.settleEscrow id contract outcome).2
        (l'.settleEscrow id contract outcome).2 := by
  obtain ⟨hfound, hfound'⟩ := h.escrow_earlier hid
  rcases h.payBoth contract outcome (hfound.trans hfound'.symm) with ⟨heq, heq'⟩ | ⟨e, hpays, hpays'⟩
  · exact ⟨earlier, rfl, by rw [heq, heq']; exact h⟩
  · refine ⟨earlier.set id e.markSettled, List.length_set, h.pays hpays hpays'
      (h.conserved.settleEscrow id contract outcome)
      (h.conserved'.settleEscrow id contract outcome) ?_ ?_⟩
    · rw [h.escrows, List.set_append_left _ _ hid]
    · rw [h.escrows', List.set_append_left _ _ hid]

theorem Beside.payLater (h : Beside nonce earlier own later l l') (contract : Nat)
    (outcome : Outcome) (hid : earlier.length + own.length ≤ id) :
    ∃ later', Beside nonce earlier own later' (l.settleEscrow id contract outcome).2
      (l'.settleEscrow (id - own.length) contract outcome).2 := by
  obtain ⟨hfound, hfound'⟩ := h.escrow_later hid
  rcases h.payBoth contract outcome (hfound.trans hfound'.symm) with ⟨heq, heq'⟩ | ⟨e, hpays, hpays'⟩
  · exact ⟨later, by rw [heq, heq']; exact h⟩
  · refine ⟨later.set (id - earlier.length - own.length) e.markSettled, h.pays hpays hpays'
      (h.conserved.settleEscrow id contract outcome)
      (h.conserved'.settleEscrow (id - own.length) contract outcome) ?_ ?_⟩
    · rw [h.escrows, List.set_append_right _ _ (by omega), List.set_append_right _ _ (by omega)]
    · rw [h.escrows', List.set_append_right _ _ (by omega),
        show id - own.length - earlier.length = id - earlier.length - own.length by omega]

/-- A `Void` payout gives each account back what the escrow kept from it. -/
theorem of_credits_void (e : Escrow) (a : Nat) :
    Debits.of (e.credits .void) a = e.contributionOf a := by
  have hcredits : e.credits .void =
      [(e.requester, e.requesterContribution), (e.maker, e.makerContribution)] := by
    cases hside : e.side <;> simp [Escrow.credits, payoutGoesToRequester]
  rw [hcredits]
  simp only [Debits.of, Escrow.contributionOf, List.map_cons, List.map_nil, List.sum_cons,
    List.sum_nil]
  omega

theorem Beside.unwind (h : Beside nonce earlier own later l l') (contract : Nat)
    (hfirst : earlier.length ≤ id) (hid : id < earlier.length + own.length) :
    ∃ own', own'.length = own.length ∧
      Beside nonce earlier own' later (l.settleEscrow id contract .void).2 l' := by
  rcases h.conserved.pays id contract .void with ⟨-, heq⟩ | ⟨e, -, hpays⟩
  · exact ⟨own, rfl, by rw [heq]; exact h⟩
  · have hown : own[id - earlier.length]? = some e := (h.escrow_own hfirst hid).symm.trans hpays.found
    refine ⟨own.set (id - earlier.length) e.markSettled, List.length_set, ?_, h.escrows',
      fun a => ?_, fun other hne => ?_, ?_, h.conserved.settleEscrow id contract .void,
      h.conserved'⟩
    · rw [hpays.escrows, h.escrows, List.set_append_right _ _ hfirst,
        List.set_append_left _ _ (by omega)]
    · have hset := List.sum_map_set_add e.markSettled (Escrow.withheld a) hown
      have hback : e.withheld a = e.contributionOf a := if_pos hpays.locked
      have hnone : e.markSettled.withheld a = 0 := rfl
      have hbalance := hpays.balances a
      rw [of_credits_void] at hbalance
      rw [← h.balances a]
      omega
    · rw [hpays.resolved]
      exact h.resolved other hne
    · exact hpays.bounds.beside ⟨rfl, rfl, rfl⟩ h.bounds

-- ============================================================================
-- Whole runs
-- ============================================================================

/-- The runs are tied, wherever the bundle's escrows stand by now. -/
def Tied (nonce : Nonce) (first count : Nat) (l l' : CustodyLedger) : Prop :=
  ∃ earlier own later, earlier.length = first ∧ own.length = count ∧
    Beside nonce earlier own later l l'

theorem Tied.settleEscrow (h : Tied nonce first count l l')
    (hvoid : first ≤ id → id < first + count → outcome = .void) :
    Tied nonce first count (l.settleEscrow id contract outcome).2
        (((CustodyOp.ledger (.settleEscrow id contract outcome)).without first count).elim l'
          l'.perform) ∧
      ∀ op, (CustodyOp.ledger (.settleEscrow id contract outcome)).without first count = some op →
        l'.Alongside nonce first 0 op := by
  obtain ⟨earlier, own, later, rfl, rfl, hbeside⟩ := h
  simp only [CustodyOp.without]
  have hothers : ∀ id, l'.Alongside nonce earlier.length 0
      (.ledger (.settleEscrow id contract outcome)) := fun id hfirst hid => by omega
  by_cases hearlier : id < earlier.length
  · obtain ⟨earlier', hlen, hpaid⟩ := hbeside.payEarlier contract outcome hearlier
    rw [if_pos hearlier]
    exact ⟨⟨earlier', own, later, hlen, rfl, hpaid⟩, fun _ hop => Option.some.inj hop ▸ hothers _⟩
  rw [if_neg hearlier]
  by_cases hown : id < earlier.length + own.length
  · obtain rfl := hvoid (Nat.not_lt.mp hearlier) hown
    obtain ⟨own', hlen, hpaid⟩ := hbeside.unwind contract (Nat.not_lt.mp hearlier) hown
    rw [if_pos hown]
    exact ⟨⟨earlier, own', later, rfl, hlen, hpaid⟩, fun _ hop => nomatch hop⟩
  · obtain ⟨later', hpaid⟩ := hbeside.payLater contract outcome (Nat.not_lt.mp hown)
    rw [if_neg hown]
    exact ⟨⟨earlier, own, later', rfl, rfl, hpaid⟩, fun _ hop => Option.some.inj hop ▸ hothers _⟩

theorem Tied.step (h : Tied nonce first count l l') (halong : l.Alongside nonce first count op) :
    Tied nonce first count (l.perform op) ((op.without first count).elim l' l'.perform) ∧
      ∀ op', op.without first count = some op' → l'.Alongside nonce first 0 op' := by
  cases op with
  | ledger op =>
      cases op with
      | deposit account amount =>
          obtain ⟨earlier, own, later, hfirst, hcount, hbeside⟩ := h
          exact ⟨⟨earlier, own, later, hfirst, hcount, hbeside.deposit account amount⟩,
            fun _ hop => Option.some.inj hop ▸ trivial⟩
      | settleEscrow id contract outcome => exact h.settleEscrow halong
      | requestWithdrawal => exact halong.elim
      | executeWithdrawal => exact halong.elim
      | executeMaturedWithdrawals => exact halong.elim
  | settle hook bundle now =>
      obtain ⟨earlier, own, later, hfirst, hcount, hbeside⟩ := h
      obtain ⟨rfl, hne, receipt, hok⟩ := halong
      refine ⟨⟨earlier, own, later ++ bundle.escrows, hfirst, hcount, hbeside.settle hne hok⟩,
        fun _ hop => Option.some.inj hop ▸ ?_⟩
      exact ⟨rfl, hne, hbeside.settle_ok hne hok⟩
  | submit => exact halong.elim
  | includeNext => exact halong.elim
  | includeAll => exact halong.elim
  | dropNextSubmission => exact halong.elim
  | precheck => exact halong.elim

theorem Tied.run (h : Tied nonce first count l l') (hops : l.Interleaves nonce first count ops) :
    Tied nonce first count (l.run ops) (l'.run (ops.filterMap (CustodyOp.without first count))) ∧
      l'.Interleaves nonce first 0 (ops.filterMap (CustodyOp.without first count)) := by
  induction ops generalizing l l' with
  | nil => exact ⟨h, trivial⟩
  | cons op ops ih =>
      obtain ⟨halong, hrest⟩ := hops
      obtain ⟨htied, hothers⟩ := h.step halong
      rw [List.filterMap_cons]
      cases hop : op.without first count with
      | none =>
          rw [hop] at htied
          exact ih htied hrest
      | some op' =>
          rw [hop] at htied
          obtain ⟨hrun, hinterleaves⟩ := ih htied hrest
          exact ⟨hrun, hothers op' hop, hinterleaves⟩

/-- Settling the bundle ties the run to the one that does not. -/
theorem Conserved.tied (h : l.Conserved) (hok : (l.settle [] bundle now).1 = .ok receipt) :
    Tied bundle.nonce l.escrows.length bundle.legs.length (l.settle [] bundle now).2 l := by
  have hforms := settle_forms hok
  refine ⟨l.escrows, bundle.escrows, [], rfl, List.length_map _, ?_, ?_, fun a => ?_,
    fun other hne => ?_, ?_, h.settle [] bundle now, h⟩
  · rw [hforms.escrows, List.append_nil]
  · rw [List.append_nil]
  · have hlocked : bundle.escrows.map (Escrow.withheld a) =
        bundle.escrows.map fun e => e.contributionOf a := by
      refine List.map_congr_left fun e he => ?_
      obtain ⟨leg, -, rfl⟩ := List.mem_map.mp he
      rfl
    rw [hlocked]
    exact hforms.balances a
  · rw [hforms.resolved, Function.update_of_ne hne]
  · exact ⟨hforms.bounds.maxEscrows.symm, hforms.bounds.deposited.symm, hforms.bounds.accounts.symm⟩

theorem Tied.escrows (h : Tied nonce first count l l') :
    l'.escrows = l.escrows.take first ++ l.escrows.drop (first + count) := by
  obtain ⟨earlier, own, later, rfl, rfl, hbeside⟩ := h
  rw [hbeside.escrows, hbeside.escrows', List.take_left, ← List.append_assoc, ← List.length_append,
    List.drop_left]

/-- With none of the bundle's escrows locked, no account is short of anything. -/
theorem Tied.balances (h : Tied nonce first count l l')
    (hpaid : ∀ i < count, ∀ e, l.escrow (first + i) = some e → e.isLocked = false) (a : Nat) :
    l.balance a = l'.balance a := by
  obtain ⟨earlier, own, later, rfl, rfl, hbeside⟩ := h
  have hnone : (own.map (Escrow.withheld a)).sum = 0 := by
    refine List.sum_eq_zero fun n hn => ?_
    obtain ⟨e, he, rfl⟩ := List.mem_map.mp hn
    obtain ⟨i, hi, rfl⟩ := List.getElem_of_mem he
    have hfound : l.escrow (earlier.length + i) = some own[i] := by
      rw [hbeside.escrow_own (Nat.le_add_right _ _) (by omega), Nat.add_sub_cancel_left,
        List.getElem?_eq_getElem hi]
    rw [Escrow.withheld, hpaid i hi _ hfound]
    rfl
  have := hbeside.balances a
  omega

-- ============================================================================
-- Paid in a run
-- ============================================================================

/-- A payout leaves its escrow settled. -/
theorem Conserved.settled_of_pay (h : l.Conserved) (he : l.escrow id = some e)
    (outcome : Outcome) :
    ∃ e', (l.settleEscrow id e.contract outcome).2.escrow id = some e' ∧ e'.isLocked = false := by
  rcases h.pays id e.contract outcome with ⟨hrefused, heq⟩ | ⟨e', -, hpays⟩
  · refine ⟨e, by rw [heq]; exact he, ?_⟩
    by_contra hlocked
    exact hrefused (settleEscrow_pays_of_locked he (by simpa using hlocked) outcome)
  · have hlt : id < l.escrows.length := (List.getElem?_eq_some_iff.mp he).1
    refine ⟨e'.markSettled, ?_, rfl⟩
    rw [escrow, hpays.escrows, List.getElem?_set_self hlt]

/-- A run that pays an escrow leaves it settled. -/
theorem Conserved.settled_of_mem (h : l.Conserved) (he : l.escrow id = some e)
    (hmem : CustodyOp.ledger (.settleEscrow id e.contract outcome) ∈ ops) :
    ∃ e', (l.run ops).escrow id = some e' ∧ e'.isLocked = false := by
  obtain ⟨before, after, rfl⟩ := List.append_of_mem hmem
  rw [run_append, run_cons]
  have hbefore := h.run before
  obtain ⟨f, hf, hcontract⟩ : ∃ f, (l.run before).escrow id = some f ∧ f.contract = e.contract := by
    rcases (escrowMoves_run h before).evolves id e he with hsame | ⟨-, hmarked⟩
    · exact ⟨e, hsame, rfl⟩
    · exact ⟨e.markSettled, hmarked, rfl⟩
  obtain ⟨e', he', hsettled⟩ := hbefore.settled_of_pay hf outcome
  rw [hcontract] at he'
  have hafter := hbefore.settleEscrow id e.contract outcome
  rcases (escrowMoves_run hafter after).evolves id e' he' with hsame | ⟨hlocked, -⟩
  · exact ⟨e', hsame, hsettled⟩
  · rw [hsettled] at hlocked
    cases hlocked

/-- The escrow a leg of the bundle formed. -/
theorem Forms.escrow (h : Forms l bundle l₁) {i : Nat} {leg : BundleLeg}
    (hleg : bundle.legs[i]? = some leg) :
    l₁.escrow (l.escrows.length + i) = some (escrowOf bundle.requester leg) := by
  rw [CustodyLedger.escrow, h.escrows, List.getElem?_append_right (Nat.le_add_right _ _),
    Nat.add_sub_cancel_left, Bundle.escrows, List.getElem?_map, hleg]
  rfl

/-- A side that wins takes the whole notional. -/
theorem of_credits_won (hstake : e.stake ≤ u64Max) (won : Side) (a : Nat) :
    Debits.of (e.credits won.outcome) a =
      if (if e.side = won then e.requester else e.maker) = a then e.stake else 0 := by
  have hnotional := notional_eq_stake hstake
  cases hside : e.side <;> cases won <;>
    simp [Escrow.credits, payoutGoesToRequester, Side.outcome, hside, Debits.of, hnotional]

/-- An escrow of the bundle that is still locked pays its whole notional to the party whose
    side won. -/
theorem Conserved.pays_won (h : l.Conserved) {leg : BundleLeg} {requester r m : Nat}
    (hfound : l.escrow id = some (escrowOf requester leg)) (hr : leg.requesterContribution = some r)
    (hm : leg.makerContribution = some m) (won : Side) :
    (l.settleEscrow id leg.contract won.outcome).1 = .ok true ∧
      ∀ a, (l.settleEscrow id leg.contract won.outcome).2.balance a =
        l.balance a + if (if leg.side = won then requester else leg.maker) = a then r + m else 0 := by
  have hok : (l.settleEscrow id leg.contract won.outcome).1 = .ok true :=
    settleEscrow_pays_of_locked hfound rfl won.outcome
  refine ⟨hok, fun a => ?_⟩
  rcases h.pays id leg.contract won.outcome with ⟨hrefused, -⟩ | ⟨e, -, hpays⟩
  · exact absurd hok hrefused
  obtain rfl : escrowOf requester leg = e := Option.some.inj (hfound.symm.trans hpays.found)
  have hstake : (escrowOf requester leg).stake = r + m := by
    simp [escrowOf, Escrow.lock, Escrow.stake, hr, hm]
  rw [hpays.balances, of_credits_won (h.stakes _ (List.mem_of_getElem? hfound)), hstake]
  rfl

/-- `Void` is an exact unwind.  In any reachable ledger, a bundle that settles debits what its
    escrows hold; once all of them are paid `Void`, in any order and among deposits, other
    settlements and payouts, every balance is what the same run without the bundle leaves.
    Paid `Yes` or `No` instead, whatever happened before, an escrow credits both contributions
    to the party whose side matched. -/
theorem void_unwinds (withdrawalDelay maxAccounts maxEscrows : Nat) (before : List CustodyOp)
    {bundle : Bundle} {now : Nat} {receipt : SettleReceipt}
    (hok : (((new withdrawalDelay maxAccounts maxEscrows).run before).settle [] bundle now).1 =
      .ok receipt) :
    let l := (new withdrawalDelay maxAccounts maxEscrows).run before
    let settled := (l.settle [] bundle now).2
    let first := l.escrows.length
    let count := bundle.legs.length
    (∀ a, settled.balance a + bundle.due a = l.balance a) ∧
      (∀ ops, settled.Interleaves bundle.nonce first count ops →
        (∀ i leg, bundle.legs[i]? = some leg →
          CustodyOp.ledger (.settleEscrow (first + i) leg.contract .void) ∈ ops) →
        let others := ops.filterMap (CustodyOp.without first count)
        l.Interleaves bundle.nonce first 0 others ∧
          (l.run others).escrows =
            (settled.run ops).escrows.take first ++
              (settled.run ops).escrows.drop (first + count) ∧
          ∀ a, (settled.run ops).balance a = (l.run others).balance a) ∧
      ∀ (ops : List CustodyOp) (i : Nat) (leg : BundleLeg), bundle.legs[i]? = some leg →
        (∀ e, (settled.run ops).escrow (first + i) = some e → e.isLocked = true) →
        ∃ r m, leg.requesterContribution = some r ∧ leg.makerContribution = some m ∧
          ∀ won : Side,
            ((settled.run ops).settleEscrow (first + i) leg.contract won.outcome).1 = .ok true ∧
            ∀ a, ((settled.run ops).settleEscrow (first + i) leg.contract won.outcome).2.balance a =
              (settled.run ops).balance a +
                if (if leg.side = won then bundle.requester else leg.maker) = a then r + m
                else 0 := by
  intro l settled first count
  have h : l.Conserved := (conserved_new withdrawalDelay maxAccounts maxEscrows).run before
  have hsettled : settled.Conserved := h.settle [] bundle now
  have hforms : Forms l bundle settled := settle_forms hok
  refine ⟨hforms.balances, fun ops hops hpaid => ?_, fun ops i leg hleg hlocked => ?_⟩
  · obtain ⟨htied, hothers⟩ := (h.tied hok).run hops
    refine ⟨hothers, htied.escrows, htied.balances fun i hi e he => ?_⟩
    have hleg : bundle.legs[i]? = some bundle.legs[i] := List.getElem?_eq_getElem hi
    obtain ⟨e', he', hdone⟩ := hsettled.settled_of_mem (hforms.escrow hleg) (hpaid i _ hleg)
    obtain rfl := Option.some.inj (he'.symm.trans he)
    exact hdone
  · obtain ⟨m, r, hm, hr⟩ := hforms.priced leg (List.mem_of_getElem? hleg)
    refine ⟨r, m, hr, hm, (hsettled.run ops).pays_won ?_ hr hm⟩
    rcases (escrowMoves_run hsettled ops).evolves _ _ (hforms.escrow hleg) with hsame | ⟨-, hmarked⟩
    · exact hsame
    · cases hlocked _ hmarked

/-- A bundle with a self-traded leg. -/
def wager : Bundle := ⟨⟨0, 0⟩, 0, [⟨0, .yes, 2, 1, 400000, 50⟩, ⟨1, .no, 1, 0, 250000, 50⟩]⟩

/-- Its escrows are paid last first, around another settlement: custody with the bundle and
    custody without it. -/
def wagered : CustodyLedger :=
  (((new 10 2 8).run [.ledger (.deposit 0 9000000), .ledger (.deposit 1 9000000)]).settle []
    wager 3).2.run
      [.ledger (.settleEscrow 1 1 .void), .settle [] { wager with nonce := ⟨1, 0⟩ } 4,
        .ledger (.deposit 1 5), .ledger (.settleEscrow 0 0 .void)]

def unwagered : CustodyLedger :=
  (new 10 2 8).run [.ledger (.deposit 0 9000000), .ledger (.deposit 1 9000000),
    .settle [] { wager with nonce := ⟨1, 0⟩ } 4, .ledger (.deposit 1 5)]

/-- The same bundle with its second escrow paid `Yes`. -/
def wonSecond : CustodyLedger :=
  (((new 10 2 8).run [.ledger (.deposit 0 9000000), .ledger (.deposit 1 9000000)]).settle []
    wager 3).2.run [.ledger (.settleEscrow 1 1 .yes)]

theorem void_unwinds_wager :
    (wagered.balance 0 = unwagered.balance 0 ∧ wagered.balance 1 = unwagered.balance 1) ∧
      (wonSecond.settleEscrow 0 0 .no).2.balance 1 = wonSecond.balance 1 + 2000000 := by
  have hok : (((new 10 2 8).run [.ledger (.deposit 0 9000000), .ledger (.deposit 1 9000000)]).settle
      [] wager 3).1 = .ok ⟨[0, 1]⟩ := by decide +kernel
  obtain ⟨-, hunwound, hwon⟩ := void_unwinds 10 2 8 _ hok
  have hunwound := hunwound
    [.ledger (.settleEscrow 1 1 .void), .settle [] { wager with nonce := ⟨1, 0⟩ } 4,
      .ledger (.deposit 1 5), .ledger (.settleEscrow 0 0 .void)]
    ⟨fun _ _ => rfl, ⟨rfl, by decide, ⟨[2, 3]⟩, by decide +kernel⟩, trivial, fun _ _ => rfl, trivial⟩
  have hsame : ∀ a, wagered.balance a = unwagered.balance a := by
    refine (hunwound fun i leg hleg => ?_).2.2
    match i, hleg with
    | 0, hleg =>
        obtain rfl := Option.some.inj hleg
        exact List.mem_cons_of_mem _ (List.mem_cons_of_mem _ (List.mem_cons_of_mem _
          List.mem_cons_self))
    | 1, hleg =>
        obtain rfl := Option.some.inj hleg
        exact List.mem_cons_self
  refine ⟨⟨hsame 0, hsame 1⟩, ?_⟩
  obtain ⟨r, m, hr, hm, hpaid⟩ := hwon [.ledger (.settleEscrow 1 1 .yes)] 0
    ⟨0, .yes, 2, 1, 400000, 50⟩ rfl (by decide +kernel)
  obtain rfl : 800000 = r := Option.some.inj hr
  obtain rfl : 1200000 = m := Option.some.inj hm
  exact (hpaid .no).2 1

end CustodyLedger

end RfqSettlement
