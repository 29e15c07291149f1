/-
  RfqSettlement.Runtime.Custodial

  The custody inside the harness.

  `Custodial` is what every harness reached keeps about custody on its own: money is
  conserved, the indexer has its place in the log, both systems know the same
  accounts, and what the engine ordered can be paid.  A payable bundle bounces only
  for its age, for want of room, or on one of its parties.
-/

import RfqSettlement.Runtime.Owing

namespace RfqSettlement

-- ============================================================================
-- Why a payable bundle bounces
-- ============================================================================

/-- The accounts a bundle debits. -/
def Bundle.parties (b : Bundle) : List Nat := b.requester :: b.legs.map BundleLeg.maker

namespace CustodyLedger

variable {l : CustodyLedger} {b : Bundle} {debits : Debits} {now : Nat} {err : SettleError}

/-- A debit is all its account is debited. -/
theorem Debits.of_eq {x : Nat × Nat} (hnodup : debits.accounts.Nodup) (hx : x ∈ debits) :
    debits.of x.1 = x.2 := by
  refine Eq.trans (congrArg List.sum (List.map_congr_left fun y hy => ?_))
    (List.sum_map_ite_key hnodup hx x.2)
  split
  next heq =>
    rw [List.inj_on_of_nodup_map hnodup hy hx heq]
  next => rfl

/-- The complaints that are about a party's account. -/
def Starves (l : CustodyLedger) (b : Bundle) (a : Nat) (err : SettleError) : Prop :=
  err = .unknownAccount ∧ l.account a = none ∨ err = .insufficientFunds a ∧ l.balance a < b.due a

theorem settle_error (herr : (l.settle [] b now).1 = .error err) :
    l.validate b now = .error err ∨ err = .escrowCapacityExhausted := by
  have hfire : l.fire [] = l := rfl
  unfold settle at herr
  rw [hfire] at herr
  dsimp only at herr
  split at herr
  next heq =>
    obtain rfl := Except.error.inj herr
    exact .inl heq
  next =>
    split at herr
    · exact .inr (Except.error.inj herr).symm
    · cases herr

theorem settle_error_of_payable (hpayable : b.Payable)
    (herr : (l.settle [] b now).1 = .error err) :
    err = .nonceReused ∨ (∃ leg, err = .quoteExpired leg) ∨ err = .escrowCapacityExhausted ∨
      (∀ leg ∈ b.legs, now < leg.quoteExpiry) ∧ ∃ a ∈ b.parties, l.Starves b a err := by
  rcases settle_error herr with hvalidate | hfull
  · rcases validate_of_payable hpayable l now with
      ⟨debits, heq, -⟩ | heq | ⟨leg, heq⟩ | ⟨debits, err', hlegs, hof, hcovered, heq⟩
    all_goals
      have hsame := heq.symm.trans hvalidate
      simp only [Except.error.injEq, reduceCtorEq] at hsame
    · exact .inl hsame.symm
    · exact .inr (.inl ⟨leg, hsame.symm⟩)
    · subst hsame
      have hchecked := validateLegs_ok hlegs
      rw [List.zipIdx_map_fst] at hchecked
      obtain ⟨x, hx, hcause⟩ := validateDebits_error hcovered
      refine .inr (.inr (.inr ⟨hchecked.alive, x.1, ?_, ?_⟩))
      · have hmem : x.1 ∈ debits.accounts := List.mem_map_of_mem hx
        rcases (hchecked.mem x.1).mp hmem with hnil | ⟨-, hrequester⟩ | ⟨leg, hleg, hmaker⟩
        · cases hnil
        · exact hrequester ▸ List.mem_cons_self
        · exact hmaker ▸ List.mem_cons_of_mem _ (List.mem_map_of_mem hleg)
      · have hdue : b.due x.1 = x.2 := by
          rw [← hof, Debits.of_eq (hchecked.nodup List.nodup_nil) hx]
        rw [Starves, hdue]
        exact hcause
  · exact .inr (.inr (.inl hfull))

end CustodyLedger

-- ============================================================================
-- The invariant
-- ============================================================================

namespace Harness

open CustodyLedger (Conserved SameQueue)

variable {config : Config} {clocks : Clocks} {ok : Harness → HarnessOp → Prop} {op : HarnessOp}
  {h h' : Harness} {commands commands' : List Command} {command : Command} {bundles : List Bundle}
  {now : Nat}

structure Custodial (h : Harness) : Prop where
  tracks : h.indexer.Tracks h.custody.log
  conserved : h.custody.Conserved
  known : ∀ a, (h.engine.market.totals a).isSome = (h.custody.account a).isSome
  payable : ∀ b ∈ h.intents, b.Payable

/-- A reorg that takes nothing back the indexer has delivered. -/
def Shallow (h : Harness) (block : Nat) : Prop :=
  block ≤ u64Max ∧ ∀ x ∈ h.custody.log.entries, x.key ∈ h.indexer.delivered → x.block < block

theorem custodial_new (hnew : new config = .ok h) : Custodial h := by
  obtain ⟨engine, hengine, rfl⟩ := new_eq_ok hnew
  obtain ⟨-, rfl⟩ := Engine.new_eq_ok hengine
  refine ⟨Indexer.tracks_new _, CustodyLedger.conserved_new _ _ _, fun a => ?_, by simp [start, intents]⟩
  show (((Ledger.new config).account a).map MirroredBalance.totals).isSome =
    ((CustodyLedger.new config.withdrawalDelay config.maxAccounts config.maxEscrows).account a).isSome
  simp only [Option.isSome_map, Ledger.account, Ledger.new, CustodyLedger.account, CustodyLedger.new,
    List.getElem?_replicate]
  split <;> rfl

/-- Custody knows the parties of what was ordered. -/
theorem Custodial.parties {b : Bundle} {a : Nat} (hc : Custodial h) (hsane : h.engine.Sane)
    (hpledged : b.Pledged h.engine.market) (ha : a ∈ b.parties) :
    (h.custody.account a).isSome = true := by
  obtain ⟨qs, hlen, hclaims⟩ := hpledged.claims
  have hclaim : ∃ k ∈ b.claims qs, k.account = a := by
    rcases List.mem_cons.mp ha with rfl | ha
    · exact ⟨_, List.mem_append_right _ (List.mem_singleton_self _), rfl⟩
    · obtain ⟨leg, hleg, rfl⟩ := List.mem_map.mp ha
      obtain ⟨i, hi, rfl⟩ := List.getElem_of_mem hleg
      have hzip : (b.legs[i], qs[i]) ∈ b.legs.zip qs :=
        List.mem_iff_getElem.mpr ⟨i, by simp [hlen, hi], by simp⟩
      exact ⟨_, List.mem_append_left _ (List.mem_map_of_mem hzip), rfl⟩
  obtain ⟨k, hk, rfl⟩ := hclaim
  obtain ⟨c, hc', -⟩ := (hclaims k).mpr hk
  rw [← hc.known]
  exact hsane.healthy.intact.balanced.known c k hc'

/-- A command to the engine. -/
theorem Custodial.turn (hc : Custodial h)
    (heffect : Engine.Effect now h.engine h'.engine bundles command) (hcustody : h'.custody = h.custody)
    (hindexer : h'.indexer = h.indexer) (hintents : h'.intents = h.intents ++ bundles) :
    Custodial h' where
  tracks := by
    rw [hindexer, hcustody]
    exact hc.tracks
  conserved := hcustody ▸ hc.conserved
  known a := by
    obtain ⟨scope, hsteps⟩ := heffect.steps
    rw [hsteps.totals_isSome, hcustody]
    exact hc.known a
  payable b hb := by
    rw [hintents] at hb
    rcases List.mem_append.mp hb with hb | hb
    · exact hc.payable b hb
    · cases heffect with
      | still _ _ hbundles => rw [hbundles] at hb; cases hb
      | traded _ _ _ _ hbundles => rw [hbundles] at hb; cases hb
      | credited _ _ _ hbundles => rw [hbundles] at hb; cases hb
      | resolved _ _ hbundles => rw [hbundles] at hb; cases hb
      | accepted haccepts hbundles =>
          rw [hbundles, List.mem_singleton] at hb
          obtain ⟨n, -, hcol⟩ := haccepts.collateral
          exact hb ▸ hcol.payable

/-- A move of custody or its log. -/
theorem Custodial.chain (hc : Custodial h) (hengine : h'.engine = h.engine)
    (hintents : h'.intents = h.intents) (htracks : h'.indexer.Tracks h'.custody.log)
    (hconserved : h'.custody.Conserved)
    (haccounts : h'.custody.balances.length = h.custody.balances.length) : Custodial h' where
  tracks := htracks
  conserved := hconserved
  known a := by
    rw [hengine, hc.known a, Bool.eq_iff_iff, CustodyLedger.isSome_account_iff,
      CustodyLedger.isSome_account_iff, haccounts]
  payable b hb := hc.payable b (hintents ▸ hb)

theorem Custodial.ledger (ledgerOp : CustodyLedger.LedgerOp) (hc : Custodial h)
    (hengine : h'.engine = h.engine) (hintents : h'.intents = h.intents)
    (hindexer : h'.indexer = h.indexer) (hcustody : h'.custody = ledgerOp.apply h.custody)
    (hposts : ∃ payloads, CustodyLedger.Posts h.custody h'.custody payloads) : Custodial h' := by
  have hqueue : SameQueue h.custody (ledgerOp.apply h.custody) :=
    CustodyLedger.sameQueue_fire [ledgerOp]
  refine hc.chain hengine hintents ?_ ?_ (hcustody ▸ hqueue.accounts)
  · obtain ⟨payloads, hp⟩ := hposts
    rw [hindexer, hp.log]
    exact hc.tracks.appends payloads
  · rw [hcustody]
    exact hc.conserved.fire [ledgerOp]

/-- The log of an inclusion: what a settlement posts, and the answer. -/
theorem tracks_includeNext {indexer : Indexer} {l : CustodyLedger} (h : indexer.Tracks l.log) :
    indexer.Tracks (l.includeNext [] now).2.log := by
  have hcases := CustodyLedger.includeNext_cases l [] now
  generalize l.includeNext [] now = result at hcases
  cases hcases with
  | idle => exact h
  | bounced => exact h
  | reverted => exact h.append
  | @settled bundle pending receipt debits =>
      have hposts : CustodyLedger.Posts _
          (({ l with pending } : CustodyLedger).commitBundle bundle debits) _ :=
        CustodyLedger.posts_commitBundle
      have hlog : ({ l with pending } : CustodyLedger).fire [] = { l with pending } := rfl
      have happends := h.appends ((debits.map Prod.fst).map fun a =>
        .balanceChanged a (({ l with pending } : CustodyLedger).debitAll debits |>.available a))
      rw [hlog]
      refine Indexer.Tracks.append ?_
      rw [hposts.log]
      exact happends

theorem Custodial.move (hc : Custodial h) (ht : Timed config clocks h)
    (hmove : Move clocks ok op h commands h' commands') (hstraight : ∀ h op, ok h op → Straight h op)
    (hshallow : ∀ h block, ok h (.reorg block) → Shallow h block) : Custodial h' := by
  have hquiet : ∀ {h' : Harness}, h'.engine = h.engine → h'.intents = h.intents →
      h'.indexer = h.indexer → h'.custody.log = h.custody.log → h'.custody.Conserved →
      h'.custody.balances = h.custody.balances → Custodial h' := by
    intro h' hengine hintents hindexer hlog hconserved hbalances
    refine hc.chain hengine hintents ?_ hconserved (congrArg List.length hbalances)
    rw [hindexer, hlog]
    exact hc.tracks
  cases hmove with
  | applied => exact hc.turn (ht.effect _) rfl rfl intents_apply
  | polled => exact hc.turn (ht.effect _) rfl rfl intents_apply
  | delivered => exact hc.turn (ht.effect _) rfl rfl intents_deliver
  | drained => exact hc.chain rfl rfl hc.tracks.drain.1 hc.conserved rfl
  | @deposited account amount =>
      exact hc.ledger (.deposit account amount) rfl rfl rfl rfl CustodyLedger.posts_deposit
  | @requested account amount =>
      exact hc.ledger (.requestWithdrawal account amount (clocks.chain h.reads)) rfl rfl rfl rfl
        CustodyLedger.posts_requestWithdrawal
  | @executed account =>
      exact hc.ledger (.executeWithdrawal account (clocks.chain h.reads)) rfl rfl rfl rfl
        CustodyLedger.posts_executeWithdrawal
  | sent => exact hquiet rfl rfl rfl rfl (hc.conserved.withPending _) rfl
  | resent => exact hquiet rfl rfl rfl rfl (hc.conserved.withPending _) rfl
  | lost =>
      have hdrop : h.custody.dropNextSubmission.2.log = h.custody.log ∧
          h.custody.dropNextSubmission.2.balances = h.custody.balances := by
        unfold CustodyLedger.dropNextSubmission
        split <;> exact ⟨rfl, rfl⟩
      exact hquiet rfl rfl rfl hdrop.1 hc.conserved.dropNextSubmission hdrop.2
  | included =>
      exact hc.chain rfl rfl (tracks_includeNext hc.tracks) (hc.conserved.includeNext _ _)
        (CustodyLedger.accounts_includeNext _ _ _)
  | @paid intent payouts =>
      cases intent with
      | settleIntent escrow contract outcome =>
          exact hc.ledger (.settleEscrow escrow contract outcome) rfl rfl rfl rfl
            CustodyLedger.posts_settleEscrow
      | _ => exact hquiet rfl rfl rfl rfl hc.conserved rfl
  | logged => exact hc.chain rfl rfl hc.tracks.append (hc.conserved.withLog _) rfl
  | mined => exact hc.chain rfl rfl hc.tracks.advanceBlock (hc.conserved.withLog _) rfl
  | rewound => exact hc.chain rfl rfl hc.tracks.rewind hc.conserved rfl
  | forgot => exact hc.chain rfl rfl hc.tracks.forgetEverything hc.conserved rfl
  | reorged hop hok =>
      obtain ⟨hblock, hspared⟩ := hshallow h _ (hop ▸ hok)
      exact hc.chain rfl rfl (hc.tracks.reorg (Nat.le_succ_of_le hblock) hspared).1 (hc.conserved.withLog _) rfl
  | @handled custodyOp hop hok =>
      have hnever : Straight h (.custody custodyOp) := hop ▸ hstraight h op hok
      exact hnever.elim
  | _ => exact hquiet rfl rfl rfl rfl hc.conserved rfl

end Harness

end RfqSettlement
