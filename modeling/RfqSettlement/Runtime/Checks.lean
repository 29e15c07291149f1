/-
  RfqSettlement.Runtime.Checks

  The cross-system invariants the harness checks itself (`runtime/src/harness.rs`,
  `check_conservation`, `check_escrow_contributions`, `check_claim_coverage` and
  `check_mirror_agreement`), and which of them never fire.

  A panic of `assert_settlement_invariants` is an error of `settlementInvariants`, and
  one of `assert_cross_system_invariants` an error of `checkCrossSystemInvariants`.
-/

import RfqSettlement.Core.LedgerCheck
import RfqSettlement.Runtime.Lagless

namespace RfqSettlement

/-- A broken cross-system invariant. -/
inductive CrossSystemViolation where
  | conservationBroken
  | claimCoverageBroken (account : Nat)
  | mirrorDisagrees (account : Nat)
  | escrowContributionsWrong (escrow : Nat)
deriving DecidableEq, Repr

/-- Amounts added one after the other, as long as the total can be represented. -/
def checkedSum (total : Nat) : List Nat → Option Nat
  | [] => some total
  | amount :: amounts =>
    match checkedAdd total amount with
    | none => none
    | some total => checkedSum total amounts

theorem checkedSum_of_le {total : Nat} {amounts : List Nat} (h : total + amounts.sum ≤ u64Max) :
    checkedSum total amounts = some (total + amounts.sum) := by
  induction amounts generalizing total with
  | nil => rfl
  | cons amount amounts ih =>
      rw [List.sum_cons] at h ⊢
      have hfits : checkedAdd total amount = some (total + amount) :=
        checkedAdd_eq_some.mpr ⟨by omega, rfl⟩
      rw [checkedSum, hfits]
      dsimp only
      rw [ih (by omega), Nat.add_assoc]

/-- An escrow's two contributions sum to its notional. -/
def Escrow.checkContributions (id : Nat) (e : Escrow) : Except CrossSystemViolation Unit :=
  match checkedAdd e.requesterContribution e.makerContribution with
  | none => .error (.escrowContributionsWrong id)
  | some sum =>
    match Size.notional e.size with
    | none => .error (.escrowContributionsWrong id)
    | some notional => if sum ≠ notional then .error (.escrowContributionsWrong id) else .ok ()

theorem checkAll_error {α ε : Type} {xs : List α} {check : α → Except ε Unit} {e : ε}
    (h : checkAll xs check = .error e) : ∃ x ∈ xs, check x = .error e := by
  induction xs with
  | nil => cases h
  | cons x xs ih =>
      rw [checkAll] at h
      cases hx : check x with
      | error e' =>
          rw [hx] at h
          exact ⟨x, List.mem_cons_self, hx.trans h⟩
      | ok =>
          rw [hx] at h
          obtain ⟨y, hy, hfails⟩ := ih h
          exact ⟨y, List.mem_cons_of_mem _ hy, hfails⟩

namespace Harness

/-- Balances and locked escrows against deposits less withdrawals. -/
def checkConservation (h : Harness) : Except CrossSystemViolation Unit :=
  match checkedSum 0 ((List.range h.custody.balances.length).map h.custody.balance) with
  | none => .error .conservationBroken
  | some held =>
    match checkedSum held ((h.custody.escrows.filter Escrow.isLocked).map Escrow.notional) with
    | none => .error .conservationBroken
    | some held =>
      match checkedSub h.custody.deposited h.custody.withdrawn with
      | none => .error .conservationBroken
      | some expected => if held ≠ expected then .error .conservationBroken else .ok ()

def checkEscrowContributions (h : Harness) : Except CrossSystemViolation Unit :=
  checkAll h.custody.escrows.zipIdx fun x => x.1.checkContributions x.2

/-- What the locked escrows hold of `account`, in the order they are visited. -/
def lockedContributions (h : Harness) (account : Nat) : List Nat :=
  (h.custody.escrows.filter Escrow.isLocked).flatMap fun e =>
    (if e.requester = account then [e.requesterContribution] else []) ++
      if e.maker = account then [e.makerContribution] else []

/-- One account's claims against what custody holds for it, in its balance and in escrow. -/
def checkCoverage (h : Harness) (account : Nat) : Except CrossSystemViolation Unit :=
  match h.engine.ledger.account account with
  | none => .ok ()
  | some entry =>
    match checkedAdd entry.reserved entry.committed with
    | none => .error (.claimCoverageBroken account)
    | some claimed =>
      match checkedSum (h.custody.balance account) (h.lockedContributions account) with
      | none => .error (.claimCoverageBroken account)
      | some backing => if backing < claimed then .error (.claimCoverageBroken account) else .ok ()

def checkClaimCoverage (h : Harness) : Except CrossSystemViolation Unit :=
  checkAll (List.range h.custody.balances.length) h.checkCoverage

/-- No declared lag, and none exhibited. -/
def lagless (h : Harness) : Bool :=
  decide (h.engine.config.confirmations = 0) && decide (h.engine.config.maxIndexerLag = 0) &&
    !h.indexerStalled

/-- The chain published `amount` as what is available of `account`. -/
def published (h : Harness) (account amount : Nat) : Bool :=
  h.custody.log.entries.any fun entry => decide (entry.payload = .balanceChanged account amount)

/-- One account's mirror: exact without lag, and otherwise nothing the chain never said. -/
def checkMirror (h : Harness) (account : Nat) : Except CrossSystemViolation Unit :=
  match h.engine.ledger.account account with
  | none => .ok ()
  | some entry =>
    if h.lagless then
      if entry.free ≠ h.custody.available account then .error (.mirrorDisagrees account) else .ok ()
    else if entry.free = 0 then .ok ()
    else if h.published account entry.free then .ok ()
    else .error (.mirrorDisagrees account)

def checkMirrorAgreement (h : Harness) : Except CrossSystemViolation Unit :=
  checkAll (List.range h.custody.balances.length) h.checkMirror

/-- The invariants that hold at every instant, including inside a settlement. -/
def settlementInvariants (h : Harness) : Except CrossSystemViolation Unit :=
  match h.checkConservation with
  | .error v => .error v
  | .ok () =>
    match h.checkEscrowContributions with
    | .error v => .error v
    | .ok () => h.checkMirrorAgreement

def checkCrossSystemInvariants (h : Harness) : Except CrossSystemViolation Unit :=
  match h.checkConservation with
  | .error v => .error v
  | .ok () =>
    match h.checkEscrowContributions with
    | .error v => .error v
    | .ok () =>
      match h.checkClaimCoverage with
      | .error v => .error v
      | .ok () => h.checkMirrorAgreement

-- ============================================================================
-- Conservation
-- ============================================================================

variable {config : Config} {clocks : Clocks} {ok : Harness → HarnessOp → Prop} {op : HarnessOp}
  {h h' : Harness} {commands commands' : List Command} {a : Nat} {t : Totals}

theorem sum_balances (l : CustodyLedger) :
    ((List.range l.balances.length).map l.balance).sum = l.held := by
  rw [CustodyLedger.held]
  refine congrArg List.sum (List.ext_getElem (by simp) fun i hi hi' => ?_)
  rw [List.length_map] at hi'
  simp [CustodyLedger.balance, CustodyLedger.account, List.getElem?_eq_getElem hi']

theorem sum_locked (l : CustodyLedger) :
    ((l.escrows.filter Escrow.isLocked).map Escrow.notional).sum = l.locked := by
  rw [CustodyLedger.locked]
  induction l.escrows with
  | nil => rfl
  | cons e escrows ih =>
      by_cases he : e.isLocked = true
      · simp [he, ih]
      · simp [he, ih]

theorem checkConservation_ok (hconserved : h.custody.Conserved) : h.checkConservation = .ok () := by
  have hsum := hconserved.sum
  have hfits := hconserved.fits
  have hbalances := sum_balances h.custody
  have hlocked := sum_locked h.custody
  rw [checkConservation, checkedSum_of_le (by omega)]
  dsimp only
  rw [checkedSum_of_le (by omega)]
  dsimp only
  rw [checkedSub_eq_some.mpr ⟨by omega, rfl⟩]
  dsimp only
  rw [if_neg]
  omega

-- ============================================================================
-- Escrow contributions
-- ============================================================================

/-- What an escrow took is the notional of its size. -/
def Proportioned (h : Harness) : Prop := ∀ e ∈ h.custody.escrows, e.stake = e.size * UNIT

theorem stake_escrowOf {requester : Nat} {leg : BundleLeg} (hpriced : leg.Priced) :
    (CustodyLedger.escrowOf requester leg).stake = (CustodyLedger.escrowOf requester leg).size * UNIT := by
  obtain ⟨maker, requester', hmaker, hrequester⟩ := hpriced
  have htaken : (CustodyLedger.escrowOf requester leg).stake = requester' + maker := by
    simp [CustodyLedger.escrowOf, Escrow.lock, Escrow.stake, hmaker, hrequester]
  have hrequester : requester' = leg.size * leg.fillPrice :=
    (Size.checkedMul_eq_some.mp hrequester).2
  rw [BundleLeg.makerContribution, Size.makerContribution] at hmaker
  split at hmaker
  next complement hcomplement =>
    obtain ⟨hprice, rfl⟩ := checkedSub_eq_some.mp hcomplement
    have hmaker : maker = leg.size * (UNIT - leg.fillPrice) := (Size.checkedMul_eq_some.mp hmaker).2
    rw [htaken, hrequester, hmaker, ← Nat.mul_add, Nat.add_sub_cancel' hprice]
    rfl
  next => cases hmaker

theorem Proportioned.congr (hp : Proportioned h) (hescrows : h'.custody.escrows = h.custody.escrows) :
    Proportioned h' := by
  rw [Proportioned, hescrows]
  exact hp

theorem Proportioned.move (hp : Proportioned h) (hl : Lagless config clocks h commands)
    (hmove : Move clocks ok op h commands h' commands') (hok : ∀ h op, ok h op → Orderly h op) :
    Proportioned h' := by
  cases hmove with
  | @deposited account amount =>
      rcases CustodyLedger.deposit_cases h.custody account amount with ⟨_, heq⟩ | ⟨_, -, -, -, heq⟩
      all_goals exact hp.congr (congrArg (fun result => result.2.escrows) heq)
  | @requested account amount =>
      rcases CustodyLedger.requestWithdrawal_cases h.custody account amount (clocks.chain h.reads) with
        ⟨_, heq⟩ | ⟨_, -, -, -, -, heq⟩
      all_goals exact hp.congr (congrArg (fun result => result.2.escrows) heq)
  | @executed account =>
      rcases CustodyLedger.executeWithdrawal_cases h.custody account (clocks.chain h.reads) with
        ⟨_, heq⟩ | ⟨_, -, -, -, heq⟩
      all_goals exact hp.congr (congrArg (fun result => result.2.escrows) heq)
  | lost =>
      refine hp.congr ?_
      show h.custody.dropNextSubmission.2.escrows = _
      unfold CustodyLedger.dropNextSubmission
      split <;> rfl
  | @included bundle pending tx hop hallowed hpending htx =>
      have hcases := CustodyLedger.includeNext_cases h.custody [] (clocks.chain h.reads)
      generalize h.custody.includeNext [] (clocks.chain h.reads) = result at hcases htx
      cases hcases with
      | idle => exact hp.congr rfl
      | bounced => exact hp.congr rfl
      | reverted => exact hp.congr rfl
      | @settled bundle' pending' receipt debits hpending' hresolved hvalidated =>
          intro e he
          have he : e ∈ (({ h.custody with pending := pending' } : CustodyLedger).commitBundle bundle'
              debits).escrows := he
          rw [CustodyLedger.escrows_commitBundle] at he
          rcases List.mem_append.mp he with he | he
          · exact hp e he
          · obtain ⟨leg, hleg, rfl⟩ := List.mem_map.mp he
            exact stake_escrowOf (hvalidated.legs.priced leg hleg)
  | @paid intent =>
      cases intent with
      | settleIntent id contract outcome =>
          rcases CustodyLedger.settleEscrow_cases h.custody id contract outcome with
            ⟨_, -, heq⟩ | ⟨e, he, -, -, heq⟩
          · exact hp.congr (by simp only [pay, heq])
          · intro e' he'
            have he' : e' ∈ h.custody.escrows.set id e.markSettled := by
              simpa only [pay, heq] using he'
            rcases List.mem_or_eq_of_mem_set he' with hold | rfl
            · exact hp e' hold
            · exact hp e (List.mem_of_getElem? he)
      | _ => exact hp.congr rfl
  | reorged hop hallowed =>
      have hnever : Orderly h (.reorg _) := hop ▸ hok h op hallowed
      exact hnever.elim
  | handled hop hallowed =>
      have hnever : Orderly h (.custody _) := hop ▸ hok h op hallowed
      exact hnever.elim
  | _ => exact hp.congr rfl

theorem checkEscrowContributions_ok (hp : Proportioned h) (hconserved : h.custody.Conserved) :
    h.checkEscrowContributions = .ok () := by
  refine checkAll_eq_ok.mpr fun x hx => ?_
  obtain ⟨e, id⟩ := x
  have he : e ∈ h.custody.escrows := (List.mem_zipIdx hx).2.2 ▸ List.getElem_mem _
  have hstake := hconserved.stakes e he
  have hproportioned := hp e he
  rw [Escrow.stake] at hstake hproportioned
  have hadd : checkedAdd e.requesterContribution e.makerContribution = some (e.size * UNIT) :=
    checkedAdd_eq_some.mpr ⟨hstake, hproportioned.symm⟩
  have hfits : e.size * UNIT ≤ u64Max := hproportioned ▸ hstake
  have hnotional : Size.notional e.size = some (e.size * UNIT) := by
    rw [Size.notional]
    exact Size.checkedMul_eq_some.mpr ⟨hfits, rfl⟩
  show Escrow.checkContributions id e = .ok ()
  rw [Escrow.checkContributions, hadd, hnotional]
  exact if_neg (not_not.mpr rfl)

-- ============================================================================
-- Claim coverage
-- ============================================================================

theorem sum_lockedContributions_le (hconserved : h.custody.Conserved) (a : Nat) :
    (h.lockedContributions a).sum ≤ h.custody.locked := by
  rw [lockedContributions, ← sum_locked]
  have hall : ∀ e ∈ h.custody.escrows.filter Escrow.isLocked, e.stake ≤ u64Max :=
    fun e he => hconserved.stakes e (List.mem_of_mem_filter he)
  generalize h.custody.escrows.filter Escrow.isLocked = escrows at hall ⊢
  induction escrows with
  | nil => exact Nat.le_refl _
  | cons e escrows ih =>
      have hrest := ih fun e' he' => hall e' (List.mem_cons_of_mem _ he')
      have hnotional := CustodyLedger.notional_eq_stake (hall e List.mem_cons_self)
      have hone : ((if e.requester = a then [e.requesterContribution] else []) ++
          if e.maker = a then [e.makerContribution] else []).sum ≤ e.notional := by
        rw [hnotional, Escrow.stake, List.sum_append]
        split <;> split <;> simp
      simp only [List.flatMap_cons, List.sum_append, List.map_cons, List.sum_cons] at hone hrest ⊢
      omega

theorem balance_add_locked_le (hconserved : h.custody.Conserved) (a : Nat) :
    h.custody.balance a + (h.lockedContributions a).sum ≤ u64Max := by
  have hlocked := sum_lockedContributions_le hconserved a
  have hall := hconserved.held_le
  have hbalance : h.custody.balance a ≤ h.custody.held := by
    cases hb : h.custody.account a with
    | none =>
        rw [CustodyLedger.balance, hb]
        exact Nat.zero_le _
    | some b =>
        rw [CustodyLedger.balance_of_account hb]
        exact CustodyLedger.balance_le_held hb
  omega

/-- An account passes whose claims are within its balance and its locked contributions. -/
theorem checkCoverage_ok (hconserved : h.custody.Conserved) (hsane : h.engine.Sane)
    (hcovered : ∀ t, h.engine.market.totals a = some t →
      t.claimed ≤ h.custody.balance a + (h.lockedContributions a).sum) :
    h.checkCoverage a = .ok () := by
  unfold checkCoverage
  split
  · rfl
  next entry hentry =>
    have htotals : h.engine.market.totals a = some entry.totals := by
      show (h.engine.ledger.account a).map MirroredBalance.totals = _
      rw [hentry]
      rfl
    have hclaimed : entry.reserved + entry.committed ≤
        h.custody.balance a + (h.lockedContributions a).sum := hcovered _ htotals
    have hfits : entry.reserved + entry.committed ≤ u64Max :=
      hsane.healthy.intact.balanced.bounded a entry.totals htotals
    rw [checkedAdd_eq_some.mpr ⟨hfits, rfl⟩, checkedSum_of_le (balance_add_locked_le hconserved a)]
    dsimp only
    rw [if_neg (Nat.not_lt.mpr hclaimed)]

/-- The check of an account names that account. -/
theorem checkCoverage_violation {v : CrossSystemViolation} (hfails : h.checkCoverage a = .error v) :
    v = .claimCoverageBroken a := by
  unfold checkCoverage at hfails
  split at hfails
  · cases hfails
  split at hfails
  · exact (Except.error.inj hfails).symm
  split at hfails
  · exact (Except.error.inj hfails).symm
  split at hfails
  · exact (Except.error.inj hfails).symm
  · cases hfails

-- ============================================================================
-- Mirror agreement
-- ============================================================================

/-- Every mirror is zero or a balance the chain published. -/
def Published (h : Harness) : Prop :=
  ∀ a t, h.engine.market.totals a = some t → t.free = 0 ∨ h.published a t.free = true

theorem published_iff {amount : Nat} : h.published a amount = true ↔
    ∃ entry ∈ h.custody.log.entries, entry.payload = .balanceChanged a amount := by
  simp [published]

theorem published_of_logged {free : Nat} (hmem : .creditAccount a free ∈ h.logged) :
    h.published a free = true := by
  obtain ⟨entry, hentry, htranslate⟩ := List.mem_map.mp hmem
  refine published_iff.mpr ⟨entry, Feed.walk_sublist.subset hentry, ?_⟩
  unfold Indexer.translate at htranslate
  split at htranslate
  next hpayload =>
    simp only [Command.creditAccount.injEq] at htranslate
    rw [hpayload, htranslate.1, htranslate.2]
  all_goals cases htranslate

theorem Published.congr (hp : Published h) (hengine : h'.engine = h.engine)
    (hlog : h.custody.log.entries <+: h'.custody.log.entries) : Published h' := by
  intro a t ht
  rw [hengine] at ht
  refine (hp a t ht).imp_right fun hpublished => ?_
  obtain ⟨entry, hentry, hpayload⟩ := published_iff.mp hpublished
  exact published_iff.mpr ⟨entry, hlog.subset hentry, hpayload⟩

/-- A command to the engine.  A credit was drained from the log. -/
theorem Published.turn {command : Command} (hp : Published h) (ht : Timed config clocks h)
    (hengine : h'.engine = h.engine.step (h.input clocks command)) (hcustody : h'.custody = h.custody)
    (hcredit : ∀ a free, command = .creditAccount a free → command ∈ h.logged) : Published h' := by
  have hsame : ∀ a free, h'.published a free = h.published a free := by
    intro a free
    rw [published, hcustody]
    rfl
  intro a t' ht'
  rw [hengine] at ht'
  have heffect := ht.effect command
  obtain ⟨scope, hsteps⟩ := heffect.steps
  obtain ⟨t, htotals⟩ := Option.isSome_iff_exists.mp
    (hsteps.totals_isSome.symm.trans (by rw [ht']; rfl))
  obtain ⟨t'', ht'', hfree⟩ := free_turn heffect htotals
  obtain rfl := Option.some.inj (ht'.symm.trans ht'')
  rw [hsame, hfree]
  by_cases hone : ∃ free, command = .creditAccount a free
  · obtain ⟨free, rfl⟩ := hone
    simp only [lastCredit, if_true]
    exact .inr (published_of_logged (hcredit a free rfl))
  · rw [lastCredit_of_not_credit fun free heq => hone ⟨free, heq⟩]
    exact hp a t htotals

theorem Published.move (hp : Published h) (hl : Lagless config clocks h commands)
    (hmove : Move clocks ok op h commands h' commands') (hok : ∀ h op, ok h op → Orderly h op) :
    Published h' := by
  have hlog := hmove.entries fun h op hallowed => (hok h op hallowed).unforked
  cases hmove with
  | @applied command hop hallowed =>
      have hgateway : Straight h (.apply command) := (hop ▸ hok h op hallowed : Orderly h _).straight
      refine hp.turn hl.timed rfl rfl ?_
      rintro a free rfl
      cases hgateway
  | polled => exact hp.turn hl.timed rfl rfl (by simp)
  | @delivered command commands =>
      exact hp.turn hl.timed rfl rfl fun _ _ _ => hl.follows.drained command List.mem_cons_self
  | _ => exact hp.congr rfl hlog

theorem checkMirrorAgreement_ok (hp : Published h) (hsynced : h.lagless = true → Synced h) :
    h.checkMirrorAgreement = .ok () := by
  refine checkAll_eq_ok.mpr fun account _ => ?_
  unfold checkMirror
  split
  · rfl
  next entry hentry =>
    have htotals : h.engine.market.totals account = some entry.totals := by
      show (h.engine.ledger.account account).map MirroredBalance.totals = _
      rw [hentry]
      rfl
    split
    next hlagless =>
      have hexact : entry.free = h.custody.available account := hsynced hlagless account _ htotals
      rw [if_neg (fun hne => hne hexact)]
    next =>
      split
      · rfl
      next hne =>
        have hpublished : h.published account entry.free = true :=
          (hp account _ htotals).resolve_left hne
        rw [if_pos hpublished]

-- ============================================================================
-- Runs
-- ============================================================================

theorem settlementChecks (hreached : Reached config clocks ok h) (hmono : Monotone clocks.engine)
    (hok : ∀ h op, ok h op → Orderly h op) (hnext : h.custody.log.nextTx < u64Max) :
    h.checkConservation = .ok () ∧ h.checkEscrowContributions = .ok () ∧
      h.checkMirrorAgreement = .ok () := by
  have hall : Lagless config clocks h [] ∧ Proportioned h ∧ Published h := by
    refine hreached.induct (P := fun h commands =>
      Lagless config clocks h commands ∧ Proportioned h ∧ Published h) (fun h hnew => ?_) ?_
    · refine ⟨lagless_new hnew, ?_, ?_⟩
      all_goals
        obtain ⟨engine, hengine, rfl⟩ := new_eq_ok hnew
        obtain ⟨-, rfl⟩ := Engine.new_eq_ok hengine
      · simp [Proportioned, start, CustodyLedger.new]
      · intro a t ht
        rw [Engine.totals_new ht]
        exact .inl rfl
    · rintro op h commands h' commands' hmove ⟨hl, hproportioned, hpublished⟩
      exact ⟨hl.move hmono hmove hok, hproportioned.move hl hmove hok, hpublished.move hl hmove hok⟩
  obtain ⟨hl, hproportioned, hpublished⟩ := hall
  have hsynced : h.lagless = true → Synced h := by
    intro hlagless
    simp only [lagless, Bool.and_eq_true, decide_eq_true_eq, hl.timed.config_eq] at hlagless
    exact hreached.synced hmono hok hlagless.1.1 hlagless.1.2 hnext
  exact ⟨checkConservation_ok hl.custodial.conserved,
    checkEscrowContributions_ok hproportioned hl.custodial.conserved,
    checkMirrorAgreement_ok hpublished hsynced⟩

/-- Whatever the configuration declares, `assert_settlement_invariants` passes after every
    operation of a run without reorgs, custody being reached only through the harness. -/
theorem settlementInvariants_ok (hreached : Reached config clocks Orderly h)
    (hmono : Monotone clocks.engine) (hnext : h.custody.log.nextTx < u64Max) :
    h.settlementInvariants = .ok () := by
  obtain ⟨hconservation, hcontributions, hmirror⟩ := settlementChecks hreached hmono (fun _ _ => id) hnext
  rw [settlementInvariants, hconservation, hcontributions]
  exact hmirror

theorem settlementInvariants_traded :
    (small.run (stopped 5) tradeOps).settlementInvariants = .ok () := by
  have hreached : Reached Config.small (stopped 5) Orderly (small.run (stopped 5) tradeOps) :=
    reached_small.run tradeOps (by simp [tradeOps, Lets, Orderly, Straight, Command.isGateway])
  exact settlementInvariants_ok hreached monotone_const (by decide +kernel)

end Harness

end RfqSettlement
