/-
  RfqSettlement.Chain.Dryrun

  What the read-only dry run, a settlement and an inclusion make of one bundle.

  The dry run and the settlement share `validate`; the settlement goes on to the room in
  the escrow table.  An inclusion is the settlement, for a nonce that has no answer yet.
-/

import RfqSettlement.Chain.Moves
import RfqSettlement.Chain.Operations

namespace RfqSettlement

namespace CustodyLedger

variable {l : CustodyLedger} {bundle : Bundle} {now : Nat}

/-- The answer an inclusion records for what its settlement came to. -/
def fate : Except SettleError SettleReceipt → TxStatus
  | .ok _ => .settled
  | .error _ => .reverted

/-- The three answers to one bundle at one instant, without a hook. -/
structure Agrees (l : CustodyLedger) (bundle : Bundle) (now : Nat) : Prop where
  foreseen : ∀ receipt, (l.settle [] bundle now).1 = .ok receipt → l.precheck bundle now = .ok ()
  refused : ∀ err, l.precheck bundle now = .error err → (l.settle [] bundle now).1 = .error err
  reverted : ∀ err, (l.settle [] bundle now).1 = .error err → err ≠ .escrowCapacityExhausted →
    l.precheck bundle now = .error err
  included : l.pending = [] → l.resolved bundle.nonce = none →
    (l.submit bundle).2.includeNext [] now =
      (some ⟨bundle.nonce, (l.settle [] bundle now).1, fate (l.settle [] bundle now).1⟩,
        (l.settle [] bundle now).2.announce bundle.nonce (fate (l.settle [] bundle now).1))
  answered : ∀ existing, l.pending = [] → l.resolved bundle.nonce = some existing →
    (l.submit bundle).2.includeNext [] now = (some ⟨bundle.nonce, .error .nonceReused, existing⟩, l)

/-- A settlement without a hook is the dry run, and then the escrow table. -/
theorem settle_precheck (l : CustodyLedger) (bundle : Bundle) (now : Nat) :
    (∃ err, l.precheck bundle now = .error err ∧ l.settle [] bundle now = (.error err, l)) ∨
      l.precheck bundle now = .ok () ∧
        (l.settle [] bundle now = (.error .escrowCapacityExhausted, l) ∨
          ∃ receipt debits, l.settle [] bundle now = (.ok receipt, l.commitBundle bundle debits)) := by
  unfold settle precheck
  rw [show l.fire [] = l from rfl]
  dsimp only
  cases l.validate bundle now with
  | error err => exact .inl ⟨err, rfl, rfl⟩
  | ok debits =>
      refine .inr ⟨rfl, ?_⟩
      by_cases hroom : l.maxEscrows < l.escrows.length + bundle.legs.length
      · exact .inl (if_pos hroom)
      · exact .inr ⟨_, debits, if_neg hroom⟩

/-- A submission on an empty queue is what the next inclusion takes, from the ledger it
    was sent to. -/
theorem submit_idle (bundle : Bundle) (h : l.pending = []) :
    (l.submit bundle).2.pending = [bundle] ∧
      ({ (l.submit bundle).2 with pending := [] } : CustodyLedger) = l := by
  constructor
  · show l.pending ++ [bundle] = [bundle]
    rw [h]
    rfl
  · show ({ l with pending := [] } : CustodyLedger) = l
    rw [← h]

/-- Whatever the dry run refuses the settlement reverts with, whatever else it reverts with
    is the escrow table being full, and an inclusion on an empty queue is the settlement
    itself unless the nonce has an answer, which then stands. -/
theorem dryrun_agrees (l : CustodyLedger) (bundle : Bundle) (now : Nat) : l.Agrees bundle now := by
  have hsettle := l.settle_precheck bundle now
  refine ⟨fun receipt hok => ?_, fun err herr => ?_, fun err herr hroom => ?_, fun hidle hnone => ?_,
    fun existing hidle hexisting => ?_⟩
  · rcases hsettle with ⟨err, -, heq⟩ | ⟨hpass, -⟩
    · rw [heq] at hok
      cases hok
    · exact hpass
  · rcases hsettle with ⟨err', hfail, heq⟩ | ⟨hpass, -⟩
    · rw [hfail] at herr
      obtain rfl := Except.error.inj herr
      rw [heq]
    · rw [hpass] at herr
      cases herr
  · rcases hsettle with ⟨err', hfail, heq⟩ | ⟨-, heq | ⟨receipt, debits, heq⟩⟩
    · rw [heq] at herr
      obtain rfl := Except.error.inj herr
      exact hfail
    · rw [heq] at herr
      obtain rfl := Except.error.inj herr
      exact absurd rfl hroom
    · rw [heq] at herr
      cases herr
  · obtain ⟨hqueue, hsame⟩ := submit_idle bundle hidle
    have hunanswered : (l.submit bundle).2.resolved bundle.nonce = none := hnone
    unfold includeNext
    rw [hqueue]
    dsimp only
    rw [hunanswered, hsame]
    dsimp only
    rcases hsettle with ⟨err, -, heq⟩ | ⟨-, heq | ⟨receipt, debits, heq⟩⟩
    all_goals rw [heq]; dsimp only
    · simp only [orInsert, hnone, status, Function.update_self, fate, announce]
    · simp only [orInsert, hnone, status, Function.update_self, fate, announce]
    · have hsome : (l.commitBundle bundle debits).resolved bundle.nonce = some .settled := by
        rw [resolved_commitBundle, Function.update_self]
      rw [orInsert_of_resolved hsome, status_of_resolved hsome, fate, announce_of_resolved hsome]
  · obtain ⟨hqueue, hsame⟩ := submit_idle bundle hidle
    have hanswered : (l.submit bundle).2.resolved bundle.nonce = some existing := hexisting
    unfold includeNext
    rw [hqueue]
    dsimp only
    rw [hanswered, hsame]

/-- One leg between account 0 and account 1, who puts up all of it. -/
def gift : Bundle := ⟨⟨0, 0⟩, 0, [⟨0, .yes, 1, 1, 0, 100⟩]⟩

/-- A full escrow table passes the dry run and reverts the settlement; a nonce that was
    reverted once is refused by the inclusion and would settle. -/
theorem dryrun_disagrees :
    (¬ ∀ (withdrawalDelay maxAccounts maxEscrows : Nat) (ops : List CustodyOp) (bundle : Bundle) (now : Nat),
      (((new withdrawalDelay maxAccounts maxEscrows).run ops).precheck bundle now).isOk =
        (((new withdrawalDelay maxAccounts maxEscrows).run ops).settle [] bundle now).1.isOk) ∧
    ¬ ∀ (withdrawalDelay maxAccounts maxEscrows : Nat) (ops : List CustodyOp) (bundle : Bundle) (now : Nat),
      ((new withdrawalDelay maxAccounts maxEscrows).run ops).pending = [] →
        ((((new withdrawalDelay maxAccounts maxEscrows).run ops).submit bundle).2.includeNext [] now).1.map
            IncludedTx.outcome =
          some (((new withdrawalDelay maxAccounts maxEscrows).run ops).settle [] bundle now).1 := by
  constructor
  · intro hall
    exact absurd (hall 0 2 0 [.ledger (.deposit 1 UNIT)] gift 0) (by decide)
  · intro hall
    have hsame := hall 0 2 8 [.submit gift, .includeNext [] 0, .ledger (.deposit 1 UNIT)] gift 0 (by decide)
    have hok := congrArg (Option.map Except.isOk) hsame
    exact absurd hok (by decide)

end CustodyLedger

end RfqSettlement
