/-
  RfqSettlement.Runtime.Timelock

  Withdrawals, in a venue without lag whose clocks agree.

  All claims of an account are within what custody has available for it (`covered`),
  or within its balance, while a withdrawal is pending that matures once everything
  the account is bound by has lapsed (`waiting`), or everything has lapsed already
  (`lapsed`).  Requesting leads from the first to the second and executing from the
  second to the third, and opening anything new leads back to the first: admission
  looks at the mirror, and the mirror is exact.
-/

import RfqSettlement.Runtime.Forming
import RfqSettlement.Runtime.Lagless

namespace RfqSettlement

/-- The withdrawal delay outlasts a request and a quote made at its last moment. -/
def Config.Outlasting (c : Config) : Prop := c.maxRequestTtl + c.maxQuoteTtl ≤ c.withdrawalDelay

instance (c : Config) : Decidable c.Outlasting := inferInstanceAs (Decidable (_ ≤ _))

theorem Config.Valid.delay {c : Config} (h : c.Valid) :
    c.maxQuoteTtl < c.withdrawalDelay ∧ c.maxRequestTtl < c.withdrawalDelay := by
  have htimelock := h.timelock
  generalize c.blockTime * c.confirmations = lag at htimelock
  omega

namespace Engine

variable {e e' : Engine} {bundles : List Bundle} {command : Command} {now : Nat}

/-- An account that opens something ends within its mirror, and by a gateway's command. -/
theorem Effect.nothingNew (heffect : Effect now e e' bundles command) (account : Nat) :
    Market.NothingNew account e.market e'.market ∨
      command.isGateway = true ∧ e'.market.Within account := by
  have hclosed : ∀ {scope : Scope}, Market.Steps now scope e.market e'.market → ¬ scope.Opens →
      Market.NothingNew account e.market e'.market := by
    intro scope hsteps hopens
    rcases hsteps.nothingNew account with hold | ⟨hnew, -⟩
    · exact hold
    · exact absurd hnew hopens
  cases heffect with
  | still hsteps => exact .inl (hclosed (hsteps (.rejecting ⟨0, 0⟩)) (by simp [Scope.Opens]))
  | traded hgateway _ _ hsteps =>
      exact (hsteps.nothingNew account).imp_right fun hnew => ⟨hgateway, hnew.2⟩
  | credited hsteps => exact .inl (hclosed hsteps (by simp [Scope.Opens]))
  | accepted haccepts => exact .inl (hclosed haccepts.steps (by simp [Scope.Opens]))
  | resolved _ hanswers => exact .inl (hclosed hanswers.steps (by simp [Scope.Opens]))

/-- A bundle is handed over by the accept of its request. -/
theorem Effect.accepts {bundle : Bundle} (heffect : Effect now e e' bundles command)
    (hb : bundle ∈ bundles) : ∃ r a, Accepts now r bundle a e e' := by
  cases heffect with
  | still _ _ hbundles => rw [hbundles] at hb; cases hb
  | traded _ _ _ _ hbundles => rw [hbundles] at hb; cases hb
  | credited _ _ _ hbundles => rw [hbundles] at hb; cases hb
  | resolved _ _ hbundles => rw [hbundles] at hb; cases hb
  | accepted haccepts hbundles =>
      rw [hbundles, List.mem_singleton] at hb
      exact ⟨_, _, hb ▸ haccepts⟩

end Engine

namespace CustodyLedger

variable {l l' : CustodyLedger} {account : Nat}

/-- Nothing but the account of one owner changed. -/
structure Only (account : Nat) (l l' : CustodyLedger) : Prop where
  resolved : l'.resolved = l.resolved
  delay : l'.withdrawalDelay = l.withdrawalDelay
  others : ∀ a, a ≠ account → l'.account a = l.account a

theorem only_modifyAccount {f : Balance → Balance} :
    Only account l ((l.modifyAccount account f).logBalance account) :=
  ⟨rfl, rfl, fun a ha => by rw [account_logBalance, account_modifyAccount, if_neg (Ne.symm ha)]⟩

/-- A request that is let through starts the one timelock of its account. -/
theorem only_requestWithdrawal (l : CustodyLedger) (account amount now : Nat) :
    Only account l (l.requestWithdrawal account amount now).2 ∧
      ((l.requestWithdrawal account amount now).2.account account = l.account account ∨
        ∃ b, l.account account = some b ∧ b.pending = 0 ∧
          (l.requestWithdrawal account amount now).2.account account =
            some { b with pending := amount, maturesAt := now + l.withdrawalDelay }) := by
  rcases requestWithdrawal_cases l account amount now with ⟨err, heq⟩ | ⟨b, hb, hpending, -, -, heq⟩
  · rw [heq]
    exact ⟨⟨rfl, rfl, fun _ _ => rfl⟩, .inl rfl⟩
  · rw [heq]
    refine ⟨only_modifyAccount, .inr ⟨b, hb, hpending, ?_⟩⟩
    rw [account_logBalance, account_modifyAccount, if_pos rfl, hb, Option.map_some]

/-- One that matured is paid, and what is left was available. -/
theorem only_executeWithdrawal (l : CustodyLedger) (account now : Nat) :
    Only account l (l.executeWithdrawal account now).2 ∧
      ((l.executeWithdrawal account now).2.account account = l.account account ∨
        ∃ b, l.account account = some b ∧ b.maturesAt ≤ now ∧
          (l.executeWithdrawal account now).2.account account =
            some { b with balance := b.balance - min b.pending b.balance, pending := 0 }) := by
  rcases executeWithdrawal_cases l account now with ⟨err, heq⟩ | ⟨b, hb, -, hmature, heq⟩
  · rw [heq]
    exact ⟨⟨rfl, rfl, fun _ _ => rfl⟩, .inl rfl⟩
  · rw [heq]
    refine ⟨⟨rfl, rfl, fun a ha => ?_⟩, .inr ⟨b, hb, hmature, ?_⟩⟩
    · rw [account_logBalance]
      show ((l.check _).modifyAccount account _).account a = l.account a
      rw [account_modifyAccount, if_neg (Ne.symm ha)]
      rfl
    · rw [account_logBalance]
      show ((l.check _).modifyAccount account _).account account = _
      rw [account_modifyAccount, if_pos rfl]
      show (l.account account).map _ = _
      rw [hb, Option.map_some]

end CustodyLedger

namespace Harness

open CustodyLedger (SameTimelocks)

variable {config : Config} {clocks : Clocks} {ok : Harness → HarnessOp → Prop} {op : HarnessOp}
  {h h' : Harness} {commands commands' : List Command} {command : Command}
  {bundles : List Bundle} {a account amount now m : Nat} {t t' : Totals} {due due' : Nat → Prop}
  {guarded : Prop} {bound : Nat → Nonce → Prop}

-- ============================================================================
-- What an operation may do
-- ============================================================================

/-- A bundle of `a` that custody has yet to answer. -/
structure UnderWay (h : Harness) (a : Nat) (b : Bundle) : Prop where
  ordered : b ∈ h.intents
  unresolved : h.custody.resolved b.nonce = none
  party : a ∈ b.parties

/-- The accept of a request that passes, if its requester has a withdrawal pending that leaves
    its claims uncovered, fills a quote that expires no later than the withdrawal matures. -/
def Outlived (clocks : Clocks) (h : Harness) (op : HarnessOp) : Prop :=
  ∀ r expected y, op = .apply (.acceptRequest r expected) → h.engine.ledger.request r = some y →
    h.engine.Passes (h.input clocks (.acceptRequest r expected)) expected y →
      ∀ m b, h.engine.ledger.account y.requester = some m →
        h.custody.account y.requester = some b → b.pending ≠ 0 →
          h.custody.available y.requester < m.reserved + m.committed →
            ∃ leg ∈ y.legs, ∃ sel x, h.engine.ledger.bestOnLeg leg (clocks.engine h.reads) = .ok sel ∧
              h.engine.ledger.quote sel.quote = some x ∧ x.expiresAt ≤ b.maturesAt

/-- A withdrawal that leaves claims of its account uncovered is paid only while the bundles of
    the account that are under way are of `bound`. -/
def Binds (clocks : Clocks) (bound : Nat → Nonce → Prop) (h : Harness) (op : HarnessOp) : Prop :=
  ∀ a m x, op = .executeWithdrawal a → h.engine.ledger.account a = some m →
    h.custody.account a = some x → x.pending ≠ 0 → x.maturesAt ≤ clocks.chain h.reads →
      h.custody.available a < m.reserved + m.committed → ∀ b, h.UnderWay a b → bound a b.nonce

-- ============================================================================
-- What a move does
-- ============================================================================

/-- A command was handed to the engine. -/
structure Told (clocks : Clocks) (h h' : Harness) (command : Command) : Prop where
  effect : Engine.Effect (clocks.engine h.reads) h.engine h'.engine (h.bundles clocks command) command
  custody : h'.custody = h.custody
  included : h'.included = h.included
  intents : h'.intents = h.intents ++ h.bundles clocks command
  reads : h'.reads = h.reads + 1
  owed : ∀ a, h'.owed [] a = h.owed [command] a

/-- Nobody has less than before, counting what is owed, and no withdrawal was touched. -/
structure Holds (h h' : Harness) : Prop where
  engine : h'.engine = h.engine
  intents : h'.intents = h.intents
  reads : h.reads ≤ h'.reads
  unresolved : ∀ nonce, h'.custody.resolved nonce = none → h.custody.resolved nonce = none
  delay : h'.custody.withdrawalDelay = h.custody.withdrawalDelay
  balance : ∀ a, h.custody.balance a + h.owed [] a ≤ h'.custody.balance a + h'.owed [] a
  owed : ∀ a, h.owed [] a ≤ h'.owed [] a
  timelocks : SameTimelocks h.custody h'.custody

theorem Holds.available (hh : Holds h h') (a : Nat) :
    h.custody.available a + h.owed [] a ≤ h'.custody.available a + h'.owed [] a := by
  have hbalance := hh.balance a
  have howed := hh.owed a
  cases hb : h.custody.account a with
  | none =>
      rw [CustodyLedger.available, hb, Option.map_none, Option.getD_none]
      omega
  | some b =>
      obtain ⟨b', hb', hpending, -⟩ := hh.timelocks a b hb
      rw [CustodyLedger.balance, CustodyLedger.balance, hb, hb'] at hbalance
      rw [CustodyLedger.available, CustodyLedger.available, hb, hb']
      simp only [Option.map_some, Option.getD_some, Balance.available, saturatingSub] at hbalance ⊢
      omega

theorem holds_quiet (hengine : h'.engine = h.engine) (hintents : h'.intents = h.intents)
    (hreads : h.reads ≤ h'.reads) (hbalances : h'.custody.balances = h.custody.balances)
    (hresolved : h'.custody.resolved = h.custody.resolved)
    (hdelay : h'.custody.withdrawalDelay = h.custody.withdrawalDelay) : Holds h h' := by
  have howed : ∀ a, h'.owed [] a = h.owed [] a := fun a =>
    owed_congr hintents fun b _ => by rw [owes, owes, hresolved, hengine]
  refine ⟨hengine, hintents, hreads, fun nonce => by rw [hresolved]; exact id, hdelay, fun a => ?_,
    fun a => (howed a).ge, .congr (.refl _) hbalances⟩
  rw [CustodyLedger.balance_congr hbalances, howed]

theorem holds_raise (ledgerOp : CustodyLedger.LedgerOp) (hengine : h'.engine = h.engine)
    (hintents : h'.intents = h.intents) (hreads : h.reads ≤ h'.reads)
    (hcustody : h'.custody = ledgerOp.apply h.custody)
    (hraises : CustodyLedger.Raises h.custody h'.custody) : Holds h h' := by
  have hqueue : CustodyLedger.SameQueue h.custody (ledgerOp.apply h.custody) :=
    CustodyLedger.sameQueue_fire [ledgerOp]
  rw [← hcustody] at hqueue
  have howed : ∀ a, h'.owed [] a = h.owed [] a := fun a =>
    owed_congr hintents fun b _ => by rw [owes, owes, hqueue.resolved, hengine]
  refine ⟨hengine, hintents, hreads, fun nonce => by rw [hqueue.resolved]; exact id,
    hqueue.withdrawalDelay, fun a => ?_, fun a => (howed a).ge, hraises.timelocks⟩
  rw [howed]
  exact Nat.add_le_add_right (hraises.balance a) _

/-- An inclusion.  What it took from an account is owed. -/
theorem holds_include {bundle : Bundle} {pending : List Bundle} (hagrees : Agrees h commands)
    (hpending : h.custody.pending = bundle :: pending) (hengine : h'.engine = h.engine)
    (hintents : h'.intents = h.intents) (hreads : h.reads ≤ h'.reads)
    (hcustody : h'.custody = (h.custody.includeNext [] now).2) : Holds h h' := by
  have hb : bundle ∈ h.intents := hagrees.kept bundle (.inr (.inr (by simp [hpending])))
  have hcases := CustodyLedger.includeNext_cases h.custody [] now
  generalize h.custody.includeNext [] now = result at hcases hcustody
  have hfire : ∀ {l : CustodyLedger}, l.fire [] = l := rfl
  cases hcases with
  | idle => exact holds_quiet hengine hintents hreads (by rw [hcustody]) (by rw [hcustody]) (by rw [hcustody])
  | bounced =>
      exact holds_quiet hengine hintents hreads (by rw [hcustody]) (by rw [hcustody]) (by rw [hcustody])
  | @reverted bundle' pending' err hpending' hresolved =>
      obtain ⟨rfl, rfl⟩ := List.cons.inj (hpending.symm.trans hpending')
      rw [hfire] at hcustody
      have howed : ∀ a, h'.owed [] a = h.owed [] a := by
        refine fun a => owed_congr hintents fun b _ => ?_
        have hsettled : h'.custody.resolved b.nonce = some .settled ↔
            h.custody.resolved b.nonce = some .settled := by
          rw [hcustody]
          simp only [CustodyLedger.announce, Function.update_apply]
          split
          next heq => simp [heq, hresolved]
          next => exact Iff.rfl
        simp only [owes, hsettled, hengine]
      have hbalances : h'.custody.balances = h.custody.balances := by rw [hcustody]; rfl
      refine ⟨hengine, hintents, hreads, fun nonce hnone => ?_, by rw [hcustody]; rfl, fun a => ?_,
        fun a => (howed a).ge, .congr (.refl _) hbalances⟩
      · rw [hcustody] at hnone
        simp only [CustodyLedger.announce, Function.update_apply] at hnone
        split at hnone
        · cases hnone
        · exact hnone
      · rw [CustodyLedger.balance_congr hbalances, howed]
  | @settled bundle' pending' receipt debits hpending' hresolved hvalidated =>
      obtain ⟨rfl, rfl⟩ := List.cons.inj (hpending.symm.trans hpending')
      rw [hfire] at hcustody
      have hresolved' : h'.custody.resolved =
          Function.update h.custody.resolved bundle.nonce (some .settled) := by
        rw [hcustody]
        simp only [CustodyLedger.announce, CustodyLedger.resolved_commitBundle, Function.update_idem]
      have hbalances : h'.custody.balances =
          (({ h.custody with pending } : CustodyLedger).commitBundle bundle debits).balances := by
        rw [hcustody]
        rfl
      have hbooks := (CustodyLedger.sameBooks_debitAll (l := { h.custody with pending }) debits).trans
        (CustodyLedger.sameBooks_logBalances (debits.map Prod.fst))
      have howed : ∀ a, h'.owed [] a = h.owed [] a + bundle.due a := fun a =>
        hagrees.owed_settle hb hresolved hengine hintents hresolved' (by simp)
      have htimelocks : SameTimelocks h.custody
          (({ h.custody with pending } : CustodyLedger).commitBundle bundle debits) :=
        CustodyLedger.sameTimelocks_commitBundle (l := { h.custody with pending })
      refine ⟨hengine, hintents, hreads, fun nonce hnone => ?_, ?_, fun a => ?_, fun a => ?_,
        htimelocks.congr hbalances⟩
      · rw [hresolved', Function.update_apply] at hnone
        split at hnone
        · cases hnone
        · exact hnone
      · rw [hcustody]
        exact hbooks.withdrawalDelay
      · have hpaid : (({ h.custody with pending } : CustodyLedger).commitBundle bundle debits).balance a +
            bundle.due a = h.custody.balance a := hvalidated.commitBundle.2.2 a
        rw [CustodyLedger.balance_congr hbalances, howed]
        omega
      · rw [howed]
        exact Nat.le_add_right _ _

/-- What a move of a venue without lag comes down to. -/
inductive Change (clocks : Clocks) (ok : Harness → HarnessOp → Prop) (op : HarnessOp) (h : Harness)
    (commands : List Command) (h' : Harness) (commands' : List Command) : Prop where
  | told {command : Command}
      (hgateway : command.isGateway = true → op = .apply command ∧ ok h op)
      (htold : Told clocks h h' command)
      (hcoming : ∀ x ∈ h.coming commands, x = command ∨ x ∈ h'.coming commands') :
      Change clocks ok op h commands h' commands'
  | held (hholds : Holds h h') (hincluded : h'.included = h.included)
      (hcoming : ∀ x ∈ h.coming commands, x ∈ h'.coming commands') :
      Change clocks ok op h commands h' commands'
  | included {bundle : Bundle} {pending : List Bundle} {tx : CustodyLedger.IncludedTx}
      (hpending : h.custody.pending = bundle :: pending)
      (htx : (h.custody.includeNext [] (clocks.chain h.reads)).1 = some tx) (hholds : Holds h h')
      (hincluded : h'.included = h.included ++ [⟨bundle, clocks.chain h.reads, tx⟩])
      (hcoming : ∀ x ∈ h.coming commands, x ∈ h'.coming commands') :
      Change clocks ok op h commands h' commands'
  | requested {account amount : Nat} (hh' : h' = { h with
        custody := (h.custody.requestWithdrawal account amount (clocks.chain h.reads)).2
        reads := h.reads + 1 })
      (hcoming : ∀ x ∈ h.coming commands, x ∈ h'.coming commands') :
      Change clocks ok op h commands h' commands'
  | executed {account : Nat} (hop : op = .executeWithdrawal account) (hok : ok h op)
      (hnone : commands = []) (hnone' : commands' = []) (hh' : h' = { h with
        custody := (h.custody.executeWithdrawal account (clocks.chain h.reads)).2
        reads := h.reads + 1 })
      (hcoming : ∀ x ∈ h.coming commands, x ∈ h'.coming commands') :
      Change clocks ok op h commands h' commands'

theorem isGateway_translate (entry : ChainEvent) : (Indexer.translate entry).isGateway = false := by
  unfold Indexer.translate
  split <;> rfl

theorem Lagless.change (hl : Lagless config clocks h commands)
    (hmove : Move clocks ok op h commands h' commands') (hok : ∀ h op, ok h op → Orderly h op) :
    Change clocks ok op h commands h' commands' := by
  have hkept := hmove.coming hl.custodial.tracks fun h op hallowed => (hok h op hallowed).unforked
  have htold : ∀ {h' : Harness} {command : Command},
      h'.engine = h.engine.step (h.input clocks command) → h'.custody = h.custody →
      h'.included = h.included → h'.intents = h.intents ++ h.bundles clocks command →
      h'.reads = h.reads + 1 → (∀ x ∈ h'.commands, x ∈ h.commands ∨ x = command) →
      (∀ nonce status, command = .pollSettlement nonce status → status.isTerminal = true →
        h.custody.resolved nonce = some status) → Told clocks h h' command := by
    intro h' command hengine hcustody hincluded hintents hreads hdelivered hanswer
    have heffect : Engine.Effect (clocks.engine h.reads) h.engine h'.engine (h.bundles clocks command)
        command := hengine ▸ hl.timed.effect command
    exact ⟨heffect, hcustody, hincluded, hintents, hreads, fun a =>
      hl.agrees.owed_turn heffect hcustody hintents hdelivered hanswer [] a⟩
  have hquiet : h'.engine = h.engine → h'.intents = h.intents → h.reads ≤ h'.reads →
      h'.included = h.included → h'.custody.balances = h.custody.balances →
      h'.custody.resolved = h.custody.resolved →
      h'.custody.withdrawalDelay = h.custody.withdrawalDelay →
      (∀ x ∈ h.coming commands, x ∈ h'.coming commands') →
        Change clocks ok op h commands h' commands' :=
    fun hengine hintents hreads hincluded hbalances hresolved hdelay hcoming =>
      .held (holds_quiet hengine hintents hreads hbalances hresolved hdelay) hincluded hcoming
  -- only a delivery takes anything off what is coming
  have hall : commands = [] → ∀ x ∈ h.coming commands, x ∈ h'.coming commands' :=
    fun hnone x hx => (hkept x hx).resolve_right (by rw [hnone]; exact (List.cons_ne_nil _ _).symm)
  cases hmove with
  | @applied command hop hallowed =>
      have hgateway : Straight h (.apply command) := (hop ▸ hok h op hallowed : Orderly h _).straight
      refine .told (fun _ => ⟨hop, hallowed⟩) (htold rfl rfl rfl intents_apply rfl (fun x hx => .inl hx) ?_)
        fun x hx => .inr (hall rfl x hx)
      rintro nonce status rfl
      cases hgateway
  | @polled request nonce hop hopen =>
      refine .told (by intro hgateway; cases hgateway)
        (htold rfl rfl rfl intents_apply rfl (fun x hx => .inl hx) ?_) fun x hx => .inr (hall rfl x hx)
      rintro _ _ ⟨⟩ hterminal
      rw [hopen] at hterminal
      cases hterminal
  | @delivered command commands =>
      obtain ⟨entry, -, hcommand⟩ := List.mem_map.mp (hl.follows.drained command List.mem_cons_self)
      have hlogged : command.isGateway = false := hcommand ▸ isGateway_translate entry
      refine .told (fun hgateway => ?_)
        (htold rfl rfl rfl intents_deliver rfl (fun x hx => by simpa using hx) ?_) fun x hx => ?_
      · rw [hlogged] at hgateway
        cases hgateway
      · intro nonce status heq _
        exact hl.agrees.heard nonce status (.inr (heq ▸ List.mem_cons_self))
      · rcases hkept x hx with hx | heq
        · exact .inr hx
        · exact .inl (List.cons.inj heq).1.symm
  | @deposited account amount =>
      exact .held (holds_raise (.deposit account amount) rfl rfl (Nat.le_refl _) rfl
        CustodyLedger.raises_deposit) rfl (hall rfl)
  | requested => exact .requested rfl (hall rfl)
  | executed hop hallowed => exact .executed hop hallowed rfl rfl rfl (hall rfl)
  | lost =>
      have hdrop : h.custody.dropNextSubmission.2.balances = h.custody.balances ∧
          h.custody.dropNextSubmission.2.resolved = h.custody.resolved ∧
          h.custody.dropNextSubmission.2.withdrawalDelay = h.custody.withdrawalDelay := by
        unfold CustodyLedger.dropNextSubmission
        split <;> exact ⟨rfl, rfl, rfl⟩
      exact hquiet rfl rfl (Nat.le_refl _) rfl hdrop.1 hdrop.2.1 hdrop.2.2 (hall rfl)
  | included _ _ hpending htx =>
      exact .included hpending htx (holds_include hl.agrees hpending rfl rfl (Nat.le_succ _) rfl) rfl
        (hall rfl)
  | @paid intent payouts =>
      cases intent with
      | settleIntent escrow contract outcome =>
          exact .held (holds_raise (.settleEscrow escrow contract outcome) rfl rfl
            (Nat.le_refl _) rfl (CustodyLedger.raises_settleEscrow hl.custodial.conserved)) rfl (hall rfl)
      | _ => exact hquiet rfl rfl (Nat.le_refl _) rfl rfl rfl rfl (hall rfl)
  | reorged hop hallowed =>
      have hnever : Orderly h (.reorg _) := hop ▸ hok h op hallowed
      exact hnever.elim
  | handled hop hallowed =>
      have hnever : Orderly h (.custody _) := hop ▸ hok h op hallowed
      exact hnever.elim
  | _ => exact hquiet rfl rfl (Nat.le_refl _) rfl rfl rfl rfl (hall rfl)

-- ============================================================================
-- What binds an account
-- ============================================================================

/-- Nothing that binds `a` can be filled at `m` or later; its own baskets only where they are
    `guarded`. -/
structure Lapsed (guarded : Prop) (h : Harness) (a m : Nat) : Prop where
  offers : ∀ q o, h.engine.market.offers q = some o → o.maker = a → o.expiresAt ≤ m
  auctions : ∀ r x, h.engine.market.auctions r = some x → x.requester = a → x.state = .opened →
    x.deadline ≤ m
  legs : ∀ b ∈ h.intents, h.custody.resolved b.nonce = none → ∀ leg ∈ b.legs, leg.maker = a →
    leg.quoteExpiry ≤ m
  baskets : guarded → ∀ b ∈ h.intents, h.custody.resolved b.nonce = none →
    b.requester = a → ∃ leg ∈ b.legs, leg.quoteExpiry ≤ m

/-- It will be so at `m`, whatever is accepted until then. -/
structure Ripens (guarded : Prop) (h : Harness) (a m : Nat) : Prop where
  lapsed : Lapsed guarded h a m
  late : h.engine.config.Outlasting → ∀ r x, h.engine.market.auctions r = some x →
    x.requester = a → x.state = .opened → x.deadline + h.engine.config.maxQuoteTtl ≤ m

theorem Lapsed.mono {m' : Nat} (hl : Lapsed guarded h a m) (hle : m ≤ m') :
    Lapsed guarded h a m' where
  offers q o ho hmaker := (hl.offers q o ho hmaker).trans hle
  auctions r x hx hrequester hopened := (hl.auctions r x hx hrequester hopened).trans hle
  legs b hb hnone leg hleg hmaker := (hl.legs b hb hnone leg hleg hmaker).trans hle
  baskets hguarded b hb hnone hrequester := by
    obtain ⟨leg, hleg, hexpiry⟩ := hl.baskets hguarded b hb hnone hrequester
    exact ⟨leg, hleg, hexpiry.trans hle⟩

theorem Lapsed.congr (hl : Lapsed guarded h a m) (hengine : h'.engine = h.engine)
    (hintents : h'.intents = h.intents)
    (hresolved : ∀ nonce, h'.custody.resolved nonce = none → h.custody.resolved nonce = none) :
    Lapsed guarded h' a m where
  offers := hengine ▸ hl.offers
  auctions := hengine ▸ hl.auctions
  legs b hb hnone := hl.legs b (hintents ▸ hb) (hresolved _ hnone)
  baskets hguarded b hb hnone := hl.baskets hguarded b (hintents ▸ hb) (hresolved _ hnone)

theorem Ripens.congr (hr : Ripens guarded h a m) (hengine : h'.engine = h.engine)
    (hintents : h'.intents = h.intents)
    (hresolved : ∀ nonce, h'.custody.resolved nonce = none → h.custody.resolved nonce = none) :
    Ripens guarded h' a m :=
  ⟨hr.lapsed.congr hengine hintents hresolved, hengine ▸ hr.late⟩

/-- Its reservations end with what they stand for. -/
theorem Lapsed.reserved {c : ResIdx} {k : Claim} {x : Nat} (hl : Lapsed guarded h a m) (hsane : h.engine.Sane)
    (hk : h.engine.market.claims c = some k) (haccount : k.account = a) (hs : k.status = .reserved x) :
    x ≤ m := by
  have hcoherent := hsane.healthy.coherent
  cases howner : k.owner with
  | quote q =>
      obtain ⟨o, leg, ho, -, hbacks⟩ := hcoherent.offered c k q hk howner
      rw [(hbacks.reserved x hs).2]
      exact hl.offers q o ho (hbacks.account.symm.trans haccount)
  | request r =>
      obtain ⟨y, hy, hbacks⟩ := hcoherent.auctioned c k r hk howner
      obtain ⟨hopened, hdeadline, -⟩ := hbacks.reserved x hs
      rw [hdeadline]
      exact hl.auctions r y hy (hbacks.account.symm.trans haccount) hopened

/-- A command that opens nothing for `a`.  A basket `a` accepts is bound by its auction. -/
theorem Told.lapsed (htold : Told clocks h h' command) (hl : Lapsed guarded h a m)
    (hnothing : Market.NothingNew a h.engine.market h'.engine.market)
    (hlate : guarded → ∀ bundle ∈ h.bundles clocks command, bundle.requester = a →
      ∃ leg ∈ bundle.legs, leg.quoteExpiry ≤ m) : Lapsed guarded h' a m where
  offers q o ho hmaker := by
    obtain ⟨o₀, ho₀, hterms⟩ := hnothing.offers q o ho hmaker
    rw [hterms.expiresAt]
    exact hl.offers q o₀ ho₀ (hterms.maker.symm.trans hmaker)
  auctions r x hx hrequester hopened :=
    hl.auctions r x (hnothing.auctions r x hx hrequester hopened) hrequester hopened
  legs b hb hnone leg hleg hmaker := by
    rw [htold.custody] at hnone
    rw [htold.intents] at hb
    rcases List.mem_append.mp hb with hb | hb
    · exact hl.legs b hb hnone leg hleg hmaker
    · obtain ⟨r, x, haccepts⟩ := htold.effect.accepts hb
      obtain ⟨q, o, ho, -, hwinner, hexpiry⟩ := (haccepts.winners leg hleg).offer
      rw [← hexpiry]
      exact hl.offers q o ho (hwinner.trans hmaker)
  baskets hguarded b hb hnone hrequester := by
    rw [htold.custody] at hnone
    rw [htold.intents] at hb
    rcases List.mem_append.mp hb with hb | hb
    · exact hl.baskets hguarded b hb hnone hrequester
    · exact hlate hguarded b hb hrequester

/-- What a bundle just accepted is bound by. -/
theorem Told.accepted {bundle : Bundle} (htold : Told clocks h h' command)
    (hnonempty : ∀ b ∈ h'.intents, b.legs ≠ []) (htimely : h.engine.Timely now)
    (hb : bundle ∈ h.bundles clocks command) :
    (∃ r x, h.engine.market.auctions r = some x ∧ x.state = .opened ∧ x.requester = bundle.requester ∧
      clocks.engine h.reads < x.deadline ∧
      ∃ leg ∈ bundle.legs, leg.quoteExpiry < x.deadline + h.engine.config.maxQuoteTtl) ∧
    ∀ leg ∈ bundle.legs, leg.quoteExpiry ≤ now + h.engine.config.maxQuoteTtl := by
  have hsome : bundle.legs ≠ [] :=
    hnonempty bundle (by rw [htold.intents]; exact List.mem_append_right _ hb)
  obtain ⟨r, x, haccepts⟩ := htold.effect.accepts hb
  refine ⟨⟨r, x, haccepts.auction, haccepts.opened, haccepts.requester.symm, haccepts.deadline, ?_⟩,
    fun leg hleg => ?_⟩
  · obtain ⟨leg, hleg⟩ := List.exists_mem_of_ne_nil _ hsome
    obtain ⟨q, o, ho, hrequest, -, hexpiry⟩ := (haccepts.winners leg hleg).offer
    obtain ⟨x', hx', hlt⟩ := htimely.within q o ho
    rw [hrequest] at hx'
    obtain rfl := Option.some.inj (haccepts.auction.symm.trans hx')
    exact ⟨leg, hleg, hexpiry ▸ hlt⟩
  · obtain ⟨q, o, ho, -, -, hexpiry⟩ := (haccepts.winners leg hleg).offer
    rw [← hexpiry]
    exact htimely.expiry q o ho

/-- A basket accepted over a withdrawal that leaves its requester's claims uncovered. -/
theorem Outlived.expires {bundle : Bundle} {b : Balance} (houtlived : Outlived clocks h (.apply command))
    (htimed : Timed config clocks h) (hbundle : bundle ∈ h.bundles clocks command)
    (ht : h.engine.market.totals bundle.requester = some t)
    (hb : h.custody.account bundle.requester = some b) (hpending : b.pending ≠ 0)
    (huncovered : h.custody.available bundle.requester < t.claimed) :
    ∃ leg ∈ bundle.legs, leg.quoteExpiry ≤ b.maturesAt := by
  obtain ⟨now, hnow, hreach⟩ := htimed
  obtain ⟨r, expected, y, hcommand, hr, hpasses, hrequester, -, hlegs⟩ := hreach.ordered hnow hbundle
  obtain rfl : command = .acceptRequest r expected := hcommand
  obtain ⟨m, hm, rfl⟩ := Option.map_eq_some_iff.mp
    (show (h.engine.ledger.account bundle.requester).map _ = some t from ht)
  rw [hrequester] at hm hb huncovered
  obtain ⟨leg, hleg, sel, x, hbest, hx, hexpires⟩ :=
    houtlived r expected y rfl hr hpasses m b hm hb hpending huncovered
  obtain ⟨i, hi⟩ := List.mem_iff_getElem?.mp hleg
  obtain ⟨bundleLeg, sel', x', hi', hbest', hx', -, hexpiry⟩ := hlegs i leg hi
  obtain rfl := Except.ok.inj (hbest.symm.trans hbest')
  obtain rfl := Option.some.inj (hx.symm.trans hx')
  exact ⟨bundleLeg, List.mem_of_getElem? hi', hexpiry ▸ hexpires⟩

/-- What an accept orders that is not outlived: every quote it fills expires only after the
    requester's withdrawal matures, and that leaves the requester's claims uncovered. -/
theorem exists_of_not_outlived (htimed : Timed config clocks h)
    (hok : (h.engine.answer (h.input clocks command)).1 = .ok ())
    (hnot : ¬ Outlived clocks h (.apply command)) :
    ∃ bundle ∈ h.bundles clocks command, ∃ m b,
      h.engine.ledger.account bundle.requester = some m ∧
        h.custody.account bundle.requester = some b ∧ b.pending ≠ 0 ∧
          h.custody.available bundle.requester < m.reserved + m.committed ∧
            ∀ leg ∈ bundle.legs, b.maturesAt < leg.quoteExpiry := by
  obtain ⟨now, hnow, hreach⟩ := htimed
  unfold Outlived at hnot
  push Not at hnot
  obtain ⟨r, expected, y, haccept, hr, -, m, b, hm, hb, hpending, huncovered, hlate⟩ := hnot
  obtain rfl := HarnessOp.apply.inj haccept
  obtain ⟨bundle, hbundle⟩ := hreach.hands_over hnow rfl hok
  obtain ⟨r', _, y', hcommand, hr', -, hrequester, hlength, hlegs⟩ := hreach.ordered hnow hbundle
  obtain ⟨rfl, -⟩ := Command.acceptRequest.inj hcommand
  obtain rfl : y = y' := Option.some.inj (hr.symm.trans hr')
  refine ⟨bundle, hbundle, m, b, ?_⟩
  rw [hrequester]
  refine ⟨hm, hb, hpending, huncovered, fun leg hleg => ?_⟩
  obtain ⟨i, hi⟩ := List.mem_iff_getElem?.mp hleg
  have hlt : i < y.legs.length := by
    rw [← hlength]
    exact (List.getElem?_eq_some_iff.mp hi).1
  obtain ⟨_, sel, x, hi', hbest, hx, -, hexpiry⟩ := hlegs i _ (List.getElem?_eq_getElem hlt)
  obtain rfl := Option.some.inj (hi.symm.trans hi')
  rw [hexpiry]
  exact hlate _ (List.getElem_mem hlt) sel x hbest hx

/-- What is reserved after a credit has not lapsed. -/
theorem Told.live {free x : Nat} {c : ResIdx} {k : Claim}
    (htold : Told clocks h h' (.creditAccount a free)) (ht : h.engine.market.totals a = some t)
    (hk : h'.engine.market.claims c = some k) (haccount : k.account = a) (hs : k.status = .reserved x) :
    clocks.engine h.reads < x := by
  have heffect := htold.effect
  generalize h.bundles clocks (.creditAccount a free) = bundles at heffect
  cases heffect with
  | still _ _ _ _ hmirror =>
      rw [hmirror a free rfl] at ht
      cases ht
  | traded hgateway => cases hgateway
  | credited _ _ hlive => exact hlive c k x hk haccount hs

-- ============================================================================
-- The invariant
-- ============================================================================

/-- What may still make an inclusion fail, with `short` telling whether the withdrawal delay is
    too short for its requester. -/
def Inclusion.Excused (short : Prop) (i : Inclusion) : Prop :=
  ∀ err, i.tx.outcome = .error err → err = .nonceReused ∨ (∃ leg, err = .quoteExpired leg) ∨
    err = .escrowCapacityExhausted ∨ err = .insufficientFunds i.bundle.requester ∧ short

theorem Inclusion.Excused.requester {short : Prop} {i : Inclusion} (h : Inclusion.Excused short i)
    (ha : i.tx.outcome = .error (.insufficientFunds a)) : a = i.bundle.requester := by
  have hcases := h _ ha
  simp only [reduceCtorEq, exists_false, false_or, SettleError.insufficientFunds.injEq] at hcases
  exact hcases.1

theorem Inclusion.Excused.short {short : Prop} {i : Inclusion} (h : Inclusion.Excused short i)
    (ha : i.tx.outcome = .error (.insufficientFunds a)) : short := by
  have hcases := h _ ha
  simp only [reduceCtorEq, exists_false, false_or] at hcases
  exact hcases.2

/-- No claim of `a` is reserved. -/
def Unreserved (h : Harness) (a : Nat) : Prop :=
  ∀ c k x, h.engine.market.claims c = some k → k.account = a → k.status ≠ .reserved x

/-- Where an account with totals `t` stands.  The accounts `due` have a credit coming, which
    takes what has lapsed off their claims. -/
inductive Sheltered (clocks : Clocks) (guarded : Prop) (bound : Nat → Nonce → Prop) (due : Nat → Prop)
    (h : Harness) (a : Nat) (t : Totals) : Prop where
  | covered (hcovered : t.claimed ≤ h.custody.available a + h.owed [] a)
  | waiting {b : Balance} (hb : h.custody.account a = some b) (hpending : b.pending ≠ 0)
      (hfunds : t.claimed ≤ h.custody.balance a + h.owed [] a) (hripens : Ripens guarded h a b.maturesAt)
  | lapsed (hlapsed : Lapsed guarded h a (clocks.engine h.reads)) (hcleared : due a ∨ Unreserved h a)
      (hbound : ∀ b, h.UnderWay a b → bound a b.nonce)

structure Timelocked (clocks : Clocks) (guarded : Prop) (bound : Nat → Nonce → Prop) (due : Nat → Prop)
    (h : Harness) : Prop where
  expiry : ∀ b ∈ h.intents, ∀ leg ∈ b.legs,
    leg.quoteExpiry ≤ clocks.engine h.reads + h.engine.config.maxQuoteTtl
  delay : h.custody.withdrawalDelay = h.engine.config.withdrawalDelay
  sheltered : ∀ a t, h.engine.market.totals a = some t → Sheltered clocks guarded bound due h a t
  excused : ∀ i ∈ h.included, Inclusion.Excused (¬ guarded) i

theorem timelocked_new (hnew : new config = .ok h) : Timelocked clocks guarded bound due h := by
  obtain ⟨engine, hengine, rfl⟩ := new_eq_ok hnew
  obtain ⟨-, rfl⟩ := Engine.new_eq_ok hengine
  refine ⟨by simp [start, intents], rfl, fun a t ht => .covered ?_, by simp [start]⟩
  have hclaimed : t.claimed = 0 := by
    rw [Engine.totals_new ht]
    rfl
  omega

/-- Only what is due changes. -/
theorem Timelocked.of_due (hs : Timelocked clocks guarded bound due h)
    (hdue : ∀ a, due a → due' a ∨ Unreserved h a) : Timelocked clocks guarded bound due' h := by
  refine ⟨hs.expiry, hs.delay, fun a t ht => ?_, hs.excused⟩
  cases hs.sheltered a t ht with
  | covered hcovered => exact .covered hcovered
  | waiting hb hpending hfunds hripens => exact .waiting hb hpending hfunds hripens
  | lapsed hlapsed hcleared hbound => exact .lapsed hlapsed (hcleared.elim (hdue a) .inr) hbound

/-- A command to the engine. -/
theorem Timelocked.told (hl : Lagless config clocks h commands) (hl' : Lagless config clocks h' commands')
    (hmono : Monotone clocks.engine) (htold : Told clocks h h' command) (hs : Timelocked clocks guarded bound due h)
    (hsynced : command.isGateway = true → Synced h)
    (hguard : guarded → h.engine.config.Outlasting ∨ Outlived clocks h (.apply command))
    (hdue : ∀ a, due a → due' a ∨ ∃ free, command = .creditAccount a free) :
    Timelocked clocks guarded bound due' h' := by
  have hconfig : h'.engine.config = h.engine.config :=
    hl'.timed.config_eq.trans hl.timed.config_eq.symm
  have hclock : clocks.engine h.reads ≤ clocks.engine h'.reads :=
    hmono (htold.reads ▸ Nat.le_succ h.reads)
  have hnonempty : ∀ b ∈ h'.intents, b.legs ≠ [] := fun b hb => (hl'.custodial.payable b hb).nonempty
  have htimely : ∃ now, now ≤ clocks.engine h.reads ∧ h.engine.Timely now := by
    obtain ⟨now, hle, hreach⟩ := hl.timed
    exact ⟨now, hle, hreach.timely⟩
  obtain ⟨now, hnow, htimely⟩ := htimely
  refine ⟨fun b hb leg hleg => ?_, ?_, fun a t' ht' => ?_, ?_⟩
  · rw [hconfig]
    rw [htold.intents] at hb
    rcases List.mem_append.mp hb with hb | hb
    · have := hs.expiry b hb leg hleg
      omega
    · have := (htold.accepted hnonempty htimely hb).2 leg hleg
      omega
  · rw [htold.custody, hconfig, hs.delay]
  · have htotals : ∃ t, h.engine.market.totals a = some t := by
      obtain ⟨scope, hsteps⟩ := htold.effect.steps
      exact Option.isSome_iff_exists.mp (hsteps.totals_isSome.symm.trans (by rw [ht']; rfl))
    obtain ⟨t, ht⟩ := htotals
    -- an account that opens something is admitted against a mirror that is exact
    have hadmitted : command.isGateway = true → t'.claimed ≤ t'.free → Sheltered clocks guarded bound due' h' a t' := by
      intro hgateway hwithin
      obtain ⟨t'', ht'', hfree⟩ := free_turn htold.effect ht
      obtain rfl := Option.some.inj (ht'.symm.trans ht'')
      have hcredit : ∀ free, command ≠ .creditAccount a free := by
        rintro free rfl
        cases hgateway
      rw [lastCredit_of_not_credit hcredit, hsynced hgateway a t ht] at hfree
      refine .covered ?_
      rw [htold.custody]
      omega
    rcases htold.effect.nothingNew a with hnothing | ⟨hgateway, hwithin⟩
    · rcases hl.agrees.claimed_turn htold.effect ht ht' with hclaimed | ⟨hgateway, hwithin⟩
      · rw [← htold.owed] at hclaimed
        cases hs.sheltered a t ht with
        | covered hcovered =>
            refine .covered ?_
            rw [htold.custody]
            omega
        | @waiting b hb hpending hfunds hripens =>
            by_cases hcovered : t'.claimed ≤ h.custody.available a + h'.owed [] a
            · exact .covered (htold.custody ▸ hcovered)
            refine .waiting (htold.custody ▸ hb) hpending (by rw [htold.custody]; omega) ⟨?_, ?_⟩
            · refine htold.lapsed hripens.lapsed hnothing fun hguarded bundle hbundle hrequester => ?_
              rcases hguard hguarded with houtlasts | houtlived
              · obtain ⟨⟨r, x, hx, hopened, hx', -, leg, hleg, hlt⟩, -⟩ :=
                  htold.accepted hnonempty htimely hbundle
                have hlate := hripens.late houtlasts r x hx (hx'.trans hrequester) hopened
                exact ⟨leg, hleg, by omega⟩
              · subst hrequester
                exact houtlived.expires hl.timed hbundle ht hb hpending (by omega)
            · intro houtlasts r x hx hrequester hopened
              rw [hconfig] at houtlasts ⊢
              exact hripens.late houtlasts r x (hnothing.auctions r x hx hrequester hopened) hrequester hopened
        | lapsed hlapsed hcleared hbound =>
            -- nothing can be accepted that `a` is party to
            have hnever : ∀ bundle ∈ h.bundles clocks command, a ∉ bundle.parties := by
              intro bundle hbundle hparty
              obtain ⟨r, x, haccepts⟩ := htold.effect.accepts hbundle
              rcases List.mem_cons.mp hparty with hrequester | hmaker
              · have hclosed := hlapsed.auctions r x haccepts.auction
                  (haccepts.requester.symm.trans hrequester.symm) haccepts.opened
                exact Nat.not_lt.mpr hclosed haccepts.deadline
              · obtain ⟨leg, hleg, hmaker⟩ := List.mem_map.mp hmaker
                obtain ⟨q, o, ho, -, hwinner, hexpiry⟩ := (haccepts.winners leg hleg).offer
                have hdead := hlapsed.offers q o ho (hwinner.trans hmaker)
                exact Nat.not_lt.mpr (hexpiry ▸ hdead) (haccepts.live leg hleg)
            have hlapsed' : Lapsed guarded h' a (clocks.engine h.reads) :=
              htold.lapsed hlapsed hnothing fun _ bundle hbundle hrequester =>
                absurd (hrequester ▸ List.mem_cons_self) (hnever bundle hbundle)
            refine .lapsed (hlapsed'.mono hclock) ?_ fun bundle hway => ?_
            rotate_left
            · have hordered := hway.ordered
              rw [htold.intents] at hordered
              rcases List.mem_append.mp hordered with hordered | hordered
              · exact hbound bundle ⟨hordered, htold.custody ▸ hway.unresolved, hway.party⟩
              · exact absurd hway.party (hnever bundle hordered)
            rcases hcleared with hcoming | hunreserved
            · refine (hdue a hcoming).imp_right ?_
              rintro ⟨free, rfl⟩ c k x hk haccount hreserved
              have hlate := hlapsed'.reserved hl'.timed.sane hk haccount hreserved
              have hlive := htold.live ht hk haccount hreserved
              omega
            · exact .inr fun c k x hk haccount hreserved =>
                hunreserved c k x (hnothing.claims c k x hk haccount hreserved) haccount hreserved
      · exact hadmitted hgateway hwithin
    · exact hadmitted hgateway (hwithin t' ht')
  · rw [htold.included]
    exact hs.excused

/-- Nothing but funds moved, and to nobody's loss. -/
theorem Holds.timelocked (hh : Holds h h') (hmono : Monotone clocks.engine) (hs : Timelocked clocks guarded bound due h)
    (hexcused : ∀ i ∈ h'.included, Inclusion.Excused (¬ guarded) i) :
    Timelocked clocks guarded bound due h' := by
  have hclock := hmono hh.reads
  refine ⟨fun b hb leg hleg => ?_, ?_, fun a t ht => ?_, hexcused⟩
  · rw [hh.intents] at hb
    rw [hh.engine]
    have := hs.expiry b hb leg hleg
    omega
  · rw [hh.delay, hh.engine, hs.delay]
  · rw [hh.engine] at ht
    cases hs.sheltered a t ht with
    | covered hcovered => exact .covered (hcovered.trans (hh.available a))
    | @waiting b hb hpending hfunds hripens =>
        obtain ⟨b', hb', hpending', hmatures⟩ := hh.timelocks a b hb
        refine .waiting hb' (hpending'.symm ▸ hpending) (hfunds.trans (hh.balance a)) ?_
        rw [hmatures]
        exact hripens.congr hh.engine hh.intents hh.unresolved
    | lapsed hlapsed hcleared hbound =>
        refine .lapsed ((hlapsed.congr hh.engine hh.intents hh.unresolved).mono hclock) ?_
          fun b hway => hbound b ⟨hh.intents ▸ hway.ordered, hh.unresolved _ hway.unresolved, hway.party⟩
        rwa [Unreserved, hh.engine]

theorem Timelocked.include {bundle : Bundle} {pending : List Bundle} {tx : CustodyLedger.IncludedTx}
    (hs : Timelocked clocks guarded bound due h) (hl : Lagless config clocks h commands)
    (hpending : h.custody.pending = bundle :: pending)
    (htx : (h.custody.includeNext [] (clocks.engine h.reads)).1 = some tx) :
    Inclusion.Excused (¬ guarded) ⟨bundle, clocks.engine h.reads, tx⟩ := by
  have hb : bundle ∈ h.intents := hl.agrees.kept bundle (.inr (.inr (by simp [hpending])))
  have hcases := CustodyLedger.includeNext_cases h.custody [] (clocks.engine h.reads)
  generalize h.custody.includeNext [] (clocks.engine h.reads) = result at hcases htx
  intro err hfails
  have hfails : tx.outcome = .error err := hfails
  cases hcases with
  | idle => cases htx
  | bounced =>
      obtain rfl := Option.some.inj htx
      exact .inl (Except.error.inj hfails).symm
  | settled =>
      obtain rfl := Option.some.inj htx
      cases hfails
  | @reverted bundle' pending' err' hpending' hresolved hsettle =>
  obtain ⟨rfl, rfl⟩ := List.cons.inj (hpending.symm.trans hpending')
  obtain rfl := Option.some.inj htx
  obtain rfl : err' = err := Except.error.inj hfails
  have herr : (({ h.custody with pending } : CustodyLedger).settle [] bundle
      (clocks.engine h.reads)).1 = .error err' := by
    rw [hsettle]
  rcases CustodyLedger.settle_error_of_payable (hl.custodial.payable bundle hb) herr with
    hreused | hexpired | hfull | ⟨halive, a, ha, hstarves⟩
  · exact .inl hreused
  · exact .inr (.inl hexpired)
  · exact .inr (.inr (.inl hfull))
  obtain ⟨hawaits, hpledged⟩ := hl.agrees.unresolved hb hresolved
  have hknown := hl.custodial.parties hl.timed.sane hpledged ha
  rcases hstarves with ⟨-, hnone⟩ | ⟨rfl, hlt⟩
  · have hnone : h.custody.account a = none := hnone
    rw [hnone] at hknown
    cases hknown
  have hlt : h.custody.balance a < bundle.due a := hlt
  rw [← hl.custodial.known] at hknown
  obtain ⟨t, ht⟩ := Option.isSome_iff_exists.mp hknown
  have howes : h.owes [] bundle = false := by simp [owes, hresolved]
  have hcovers := hl.agrees.covers hb hawaits howes a
  have hclaimed : t.claimed = h.engine.market.sum (Claim.heldBy a) :=
    hl.timed.sane.healthy.intact.claimed ht
  cases hs.sheltered a t ht with
  | covered hcovered =>
      have := h.custody.available_le_balance a
      omega
  | waiting hb' hpending' hfunds => omega
  | lapsed hlapsed =>
      -- every leg is alive, so none is of `a`
      have hrequester : a = bundle.requester := by
        rcases List.mem_cons.mp ha with heq | hmaker
        · exact heq
        · obtain ⟨leg, hleg, hmaker⟩ := List.mem_map.mp hmaker
          have hdead := hlapsed.legs bundle hb hresolved leg hleg hmaker
          have hlive := halive leg hleg
          omega
      subst hrequester
      refine .inr (.inr (.inr ⟨rfl, fun hguarded => ?_⟩))
      obtain ⟨leg, hleg, hdead⟩ := hlapsed.baskets hguarded bundle hb hresolved rfl
      have hlive := halive leg hleg
      omega

/-- Nothing happened to an account but that time passed. -/
theorem Sheltered.congr (hsh : Sheltered clocks guarded bound due h a t) (hmono : Monotone clocks.engine)
    (hengine : h'.engine = h.engine) (hintents : h'.intents = h.intents) (hreads : h.reads ≤ h'.reads)
    (hresolved : h'.custody.resolved = h.custody.resolved)
    (haccount : h'.custody.account a = h.custody.account a) : Sheltered clocks guarded bound due h' a t := by
  have howed : h'.owed [] a = h.owed [] a :=
    owed_congr hintents fun b _ => by rw [owes, owes, hresolved, hengine]
  have hunresolved : ∀ nonce, h'.custody.resolved nonce = none → h.custody.resolved nonce = none :=
    fun nonce => by rw [hresolved]; exact id
  cases hsh with
  | covered hcovered =>
      refine .covered ?_
      rwa [CustodyLedger.available, haccount, howed]
  | waiting hb hpending hfunds hripens =>
      refine .waiting (haccount.trans hb) hpending ?_ (hripens.congr hengine hintents hunresolved)
      rwa [CustodyLedger.balance, haccount, howed]
  | lapsed hlapsed hcleared hbound =>
      refine .lapsed ((hlapsed.congr hengine hintents hunresolved).mono (hmono hreads)) ?_
        fun b hway => hbound b ⟨hintents ▸ hway.ordered, hunresolved _ hway.unresolved, hway.party⟩
      rwa [Unreserved, hengine]

/-- A withdrawal of `account` moves, and no one else's does. -/
theorem Timelocked.withdrawal {custody : CustodyLedger} {account : Nat} (hs : Timelocked clocks guarded bound due h)
    (hmono : Monotone clocks.engine) (honly : CustodyLedger.Only account h.custody custody)
    (hsheltered : ∀ t, h.engine.market.totals account = some t →
      Sheltered clocks guarded bound due h account t → Sheltered clocks guarded bound due { h with custody, reads := h.reads + 1 } account t) :
    Timelocked clocks guarded bound due { h with custody, reads := h.reads + 1 } := by
  have hclock : clocks.engine h.reads ≤ clocks.engine (h.reads + 1) := hmono (Nat.le_succ _)
  refine ⟨fun b hb leg hleg => ?_, honly.delay.trans hs.delay, fun a t ht => ?_, hs.excused⟩
  · have hexpiry := hs.expiry b hb leg hleg
    show leg.quoteExpiry ≤ clocks.engine (h.reads + 1) + h.engine.config.maxQuoteTtl
    omega
  · have hbefore := hs.sheltered a t ht
    by_cases ha : a = account
    · exact ha ▸ hsheltered t (ha ▸ ht) (ha ▸ hbefore)
    · exact hbefore.congr hmono rfl rfl (Nat.le_succ _) honly.resolved (honly.others a ha)

/-- What binds an account lapses before a withdrawal requested now matures. -/
theorem Timelocked.ripens (hs : Timelocked clocks guarded bound due h) (hl : Lagless config clocks h commands) (a : Nat) :
    Ripens guarded h a (clocks.engine h.reads + h.custody.withdrawalDelay) := by
  obtain ⟨hquote, hrequest⟩ := hl.timed.sane.config.delay
  rw [hs.delay]
  obtain ⟨now, hnow, hreach⟩ := hl.timed
  have htimely := hreach.timely
  refine ⟨⟨fun q o ho _ => ?_, fun r x hx _ _ => ?_, fun b hb _ leg hleg _ => ?_, fun _ b hb _ _ => ?_⟩,
    fun houtlasts r x hx _ _ => ?_⟩
  · have := htimely.expiry q o ho
    omega
  · have := htimely.deadline r x hx
    omega
  · have := hs.expiry b hb leg hleg
    omega
  · obtain ⟨leg, hleg⟩ := List.exists_mem_of_ne_nil _ (hl.custodial.payable b hb).nonempty
    have := hs.expiry b hb leg hleg
    exact ⟨leg, hleg, by omega⟩
  · have := htimely.deadline r x hx
    have houtlasts : h.engine.config.maxRequestTtl + h.engine.config.maxQuoteTtl ≤
      h.engine.config.withdrawalDelay := houtlasts
    omega

theorem Timelocked.requested {account amount : Nat} (hs : Timelocked clocks guarded bound due h)
    (hl : Lagless config clocks h commands) (hmono : Monotone clocks.engine) :
    Timelocked clocks guarded bound due { h with
      custody := (h.custody.requestWithdrawal account amount (clocks.engine h.reads)).2
      reads := h.reads + 1 } := by
  obtain ⟨honly, haccount⟩ := CustodyLedger.only_requestWithdrawal h.custody account amount
    (clocks.engine h.reads)
  have hripens := hs.ripens hl account
  generalize (h.custody.requestWithdrawal account amount (clocks.engine h.reads)).2 = custody at *
  refine hs.withdrawal hmono honly fun t _ hsh => ?_
  rcases haccount with hsame | ⟨b, hb, hpending, hafter⟩
  · exact hsh.congr hmono rfl rfl (Nat.le_succ _) honly.resolved hsame
  · have howed : Harness.owed { h with custody, reads := h.reads + 1 } [] account = h.owed [] account :=
      owed_congr rfl fun b _ => by rw [owes, owes, honly.resolved]
    have hunresolved : ∀ nonce, custody.resolved nonce = none → h.custody.resolved nonce = none :=
      fun nonce => by rw [honly.resolved]; exact id
    cases hsh with
    | covered hcovered =>
        -- all of the balance was available
        have hfunds : t.claimed ≤ b.balance + h.owed [] account := by
          rw [CustodyLedger.available, hb, Option.map_some, Option.getD_some, Balance.available, hpending]
            at hcovered
          simpa [saturatingSub] using hcovered
        by_cases hamount : amount = 0
        · refine .covered ?_
          rw [howed, CustodyLedger.available, hafter]
          simpa [Balance.available, saturatingSub, hamount] using hfunds
        · refine .waiting hafter hamount ?_ (hripens.congr rfl rfl hunresolved)
          rw [howed, CustodyLedger.balance, hafter]
          exact hfunds
    | waiting hb' hpending' =>
        obtain rfl := Option.some.inj (hb.symm.trans hb')
        exact absurd hpending hpending'
    | lapsed hlapsed hcleared hbound =>
        refine .lapsed (Lapsed.mono ?_ (hmono (Nat.le_succ _))) hcleared fun b hway =>
          hbound b ⟨hway.ordered, hunresolved _ hway.unresolved, hway.party⟩
        exact hlapsed.congr rfl rfl hunresolved

theorem Timelocked.executed {account : Nat} (hs : Timelocked clocks guarded bound due h)
    (hmono : Monotone clocks.engine) (hclocks : clocks.chain = clocks.engine)
    (hbinds : Binds clocks bound h (.executeWithdrawal account))
    (hdue : (h.custody.executeWithdrawal account (clocks.engine h.reads)).2.account account ≠
      h.custody.account account → due account) :
    Timelocked clocks guarded bound due { h with
      custody := (h.custody.executeWithdrawal account (clocks.engine h.reads)).2
      reads := h.reads + 1 } := by
  obtain ⟨honly, haccount⟩ := CustodyLedger.only_executeWithdrawal h.custody account
    (clocks.engine h.reads)
  generalize (h.custody.executeWithdrawal account (clocks.engine h.reads)).2 = custody at *
  refine hs.withdrawal hmono honly fun t ht hsh => ?_
  rcases haccount with hsame | ⟨b, hb, hmature, hafter⟩
  · exact hsh.congr hmono rfl rfl (Nat.le_succ _) honly.resolved hsame
  · have howed : Harness.owed { h with custody, reads := h.reads + 1 } [] account = h.owed [] account :=
      owed_congr rfl fun b _ => by rw [owes, owes, honly.resolved]
    have hunresolved : ∀ nonce, custody.resolved nonce = none → h.custody.resolved nonce = none :=
      fun nonce => by rw [honly.resolved]; exact id
    have hclock : clocks.engine h.reads ≤ clocks.engine (h.reads + 1) := hmono (Nat.le_succ _)
    have hcovers : t.claimed ≤ h.custody.available account + h.owed [] account →
        Sheltered clocks guarded bound due { h with custody, reads := h.reads + 1 } account t := by
      intro hcovered
      refine .covered ?_
      rw [CustodyLedger.available, hb] at hcovered
      rw [howed, CustodyLedger.available, hafter]
      simp only [Option.map_some, Option.getD_some, Balance.available, saturatingSub] at hcovered ⊢
      omega
    cases hsh with
    | covered hcovered => exact hcovers hcovered
    | waiting hb' hpending _ hripens =>
        obtain rfl := Option.some.inj (hb.symm.trans hb')
        by_cases hcovered : t.claimed ≤ h.custody.available account + h.owed [] account
        · exact hcovers hcovered
        obtain ⟨m, hm, rfl⟩ := Option.map_eq_some_iff.mp
          (show (h.engine.ledger.account account).map _ = some t from ht)
        have huncovered : h.custody.available account < m.totals.claimed := by omega
        have hbound := hbinds account m _ rfl hm hb hpending (by rwa [hclocks]) huncovered
        refine .lapsed (Lapsed.mono ?_ (hmature.trans hclock)) (.inl (hdue ?_)) fun b hway =>
          hbound b ⟨hway.ordered, hunresolved _ hway.unresolved, hway.party⟩
        · exact hripens.lapsed.congr rfl rfl hunresolved
        · rw [hafter, hb]
          intro heq
          exact hpending (congrArg Balance.pending (Option.some.inj heq)).symm
    | lapsed hlapsed hcleared hbound =>
        refine .lapsed (Lapsed.mono ?_ hclock) hcleared fun b hway =>
          hbound b ⟨hway.ordered, hunresolved _ hway.unresolved, hway.party⟩
        exact hlapsed.congr rfl rfl hunresolved

/-- A credit to `a` logged since the log had `mark` entries is still to come. -/
def DueSince (mark : Nat) (h : Harness) (commands : List Command) (a : Nat) : Prop :=
  ∃ entry ∈ h.custody.log.entries.drop mark, ∃ free, entry.payload = .balanceChanged a free ∧
    .creditAccount a free ∈ h.coming commands

theorem DueSince.mono {mark : Nat} (hdue : DueSince mark h commands a)
    (hentries : h.custody.log.entries <+: h'.custody.log.entries)
    (hcoming : ∀ x ∈ h.coming commands, x = command ∨ x ∈ h'.coming commands') :
    DueSince mark h' commands' a ∨ ∃ free, command = .creditAccount a free := by
  obtain ⟨entry, hentry, free, hpayload, hmem⟩ := hdue
  rcases hcoming _ hmem with heq | hmem
  · exact .inr ⟨free, heq.symm⟩
  · exact .inl ⟨entry, (hentries.drop mark).subset hentry, free, hpayload, hmem⟩

/-- A withdrawal that is executed is logged. -/
theorem dueSince_executeWithdrawal {mark account : Nat} (hl : Lagless config clocks h [])
    (hh' : h' = { h with custody := (h.custody.executeWithdrawal account now).2, reads := h.reads + 1 })
    (hmark : mark ≤ h.custody.log.entries.length) (hnext : h'.custody.log.nextTx < u64Max)
    (hchanged : (h.custody.executeWithdrawal account now).2.account account ≠ h.custody.account account) :
    DueSince mark h' [] account := by
  obtain ⟨payloads, hposts⟩ : ∃ payloads, CustodyLedger.Posts h.custody
      (h.custody.executeWithdrawal account now).2 payloads := CustodyLedger.posts_executeWithdrawal
  have hlogged := hposts.changed account hchanged
  obtain ⟨added, hentries, hpayloads⟩ := ChainLog.entries_appends payloads h.custody.log
  obtain ⟨more, -, hbacklog, hall⟩ := Indexer.backlog_appends hl.custodial.tracks payloads
  subst hh'
  have hlog := hposts.log
  rw [← hlog] at hentries hbacklog hall
  obtain rfl := hall hnext
  rw [← hpayloads] at hlogged
  obtain ⟨entry, hentry, hpayload⟩ := List.mem_map.mp hlogged
  refine ⟨entry, ?_, _, hpayload, ?_⟩
  · show entry ∈ (h.custody.executeWithdrawal account now).2.log.entries.drop mark
    rw [hentries, List.drop_append_of_le_length hmark]
    exact List.mem_append_right _ hentry
  · show _ ∈ [] ++ h.indexer.backlog (h.custody.executeWithdrawal account now).2.log
    rw [hbacklog]
    refine List.mem_append_right _ (List.mem_append_right _ (List.mem_map.mpr
      ⟨.balanceChanged account _, ?_, rfl⟩))
    rw [← hpayloads]
    exact List.mem_map.mpr ⟨entry, hentry, hpayload⟩

theorem Timelocked.move {mark : Nat} (hs : Timelocked clocks guarded bound (DueSince mark h commands) h)
    (hl : Lagless config clocks h commands) (hl' : Lagless config clocks h' commands')
    (hmono : Monotone clocks.engine) (hclocks : clocks.chain = clocks.engine)
    (hmove : Move clocks ok op h commands h' commands') (hok : ∀ h op, ok h op → Orderly h op)
    (hsynced : ∀ command, op = .apply command → Synced h)
    (hguard : guarded → config.Outlasting ∨ ∀ h op, ok h op → Outlived clocks h op)
    (hbinds : ∀ h op, ok h op → Binds clocks bound h op)
    (hmark : mark ≤ h.custody.log.entries.length) (hnext : h'.custody.log.nextTx < u64Max) :
    Timelocked clocks guarded bound (DueSince mark h' commands') h' := by
  have hentries := hmove.entries fun h op hallowed => (hok h op hallowed).unforked
  have hkept : (∀ x ∈ h.coming commands, x ∈ h'.coming commands') →
      Timelocked clocks guarded bound (DueSince mark h' commands') h := by
    refine fun hcoming => hs.of_due fun a hdue => .inl ?_
    obtain ⟨entry, hentry, free, hpayload, hmem⟩ := hdue
    exact ⟨entry, (hentries.drop mark).subset hentry, free, hpayload, hcoming _ hmem⟩
  cases hl.change hmove hok with
  | told hgateway htold hcoming =>
      refine hs.told hl hl' hmono htold (fun hcommand => hsynced _ (hgateway hcommand).1)
        (fun hguarded => ?_) fun a hdue => hdue.mono hentries hcoming
      refine (hguard hguarded).imp (hl.timed.config_eq ▸ id) fun houtlived => ?_
      intro r expected y haccept
      have hgateway := hgateway (by rw [HarnessOp.apply.inj haccept]; rfl)
      exact houtlived h _ (hgateway.1 ▸ hgateway.2) r expected y haccept
  | held hholds hincluded hcoming =>
      exact hholds.timelocked hmono (hkept hcoming) (hincluded ▸ hs.excused)
  | @included bundle pending tx hpending htx hholds hincluded hcoming =>
      refine hholds.timelocked hmono (hkept hcoming) fun i hi => ?_
      rw [hincluded] at hi
      rcases List.mem_append.mp hi with hi | hi
      · exact hs.excused i hi
      · rw [List.mem_singleton.mp hi, hclocks]
        exact hs.include hl hpending (hclocks ▸ htx)
  | requested hh' hcoming =>
      have hs := hkept hcoming
      rw [hclocks] at hh'
      generalize DueSince mark h' commands' = due at hs ⊢
      rw [hh']
      exact hs.requested hl hmono
  | @executed account hop hallowed hnone hnone' hh' hcoming =>
      have hs := hkept hcoming
      subst hnone hnone'
      rw [hclocks] at hh'
      have hdue := dueSince_executeWithdrawal hl hh' hmark hnext
      generalize DueSince mark h' [] = due at hs hdue ⊢
      rw [hh']
      exact hs.executed hmono hclocks (hop ▸ hbinds h op hallowed) hdue

-- ============================================================================
-- Runs
-- ============================================================================

/-- In the middle of an operation that began at `h₀`. -/
structure Midway (config : Config) (clocks : Clocks) (guarded : Prop) (bound : Nat → Nonce → Prop)
    (h₀ h : Harness) (commands : List Command) : Prop where
  lagless : Lagless config clocks h commands
  mark : h₀.custody.log.entries.length ≤ h.custody.log.entries.length
  timelocked : h.custody.log.nextTx < u64Max →
    Timelocked clocks guarded bound (DueSince h₀.custody.log.entries.length h commands) h

theorem Midway.move {h₀ : Harness} (hu : Midway config clocks guarded bound h₀ h commands)
    (hmono : Monotone clocks.engine) (hclocks : clocks.chain = clocks.engine)
    (hmove : Move clocks ok op h commands h' commands') (hok : ∀ h op, ok h op → Orderly h op)
    (hguard : guarded → config.Outlasting ∨ ∀ h op, ok h op → Outlived clocks h op)
    (hbinds : ∀ h op, ok h op → Binds clocks bound h op)
    (hsynced : ∀ command, op = .apply command → h'.custody.log.nextTx < u64Max → Synced h) :
    Midway config clocks guarded bound h₀ h' commands' := by
  have hl' := hu.lagless.move hmono hmove hok
  refine ⟨hl', hu.mark.trans (hmove.entries fun h op hallowed => (hok h op hallowed).unforked).length_le, fun hnext => ?_⟩
  -- while hashes last at the end of a move they lasted before it
  have hs := hu.timelocked (Nat.lt_of_le_of_lt (hu.lagless.nextTx_le hmove hok) hnext)
  exact hs.move hu.lagless hl' hmono hclocks hmove hok (fun command hop => hsynced command hop hnext)
    hguard hbinds hu.mark hnext

theorem Reached.timelocked (hreached : Reached config clocks ok h) (hmono : Monotone clocks.engine)
    (hclocks : clocks.chain = clocks.engine) (hok : ∀ h op, ok h op → Orderly h op)
    (hguard : guarded → config.Outlasting ∨ ∀ h op, ok h op → Outlived clocks h op)
    (hbinds : ∀ h op, ok h op → Binds clocks bound h op) (hshallow : config.confirmations = 0)
    (hlag : config.maxIndexerLag = 0) (hnext : h.custody.log.nextTx < u64Max) :
    Timelocked clocks guarded bound (fun _ => False) h := by
  induction hreached with
  | new hnew => exact timelocked_new hnew
  | @perform h hreached op hallowed ih =>
      have hl := hreached.lagless hmono hok
      have hstart : Midway config clocks guarded bound h h [] :=
        ⟨hl, Nat.le_refl _, fun hbefore => (ih hbefore).of_due fun _ hnever => hnever.elim⟩
      have hu : Midway config clocks guarded bound h (h.perform clocks op) [] := by
        by_cases happly : ∃ command, op = .apply command
        · obtain ⟨command, rfl⟩ := happly
          exact hstart.move hmono hclocks (.applied rfl hallowed) hok hguard hbinds fun _ _ =>
            hreached.synced hmono hok hshallow hlag
        · exact (moves_perform hallowed).induct (P := Midway config clocks guarded bound h)
            (fun _ _ _ _ hmove hu => hu.move hmono hclocks hmove hok hguard hbinds
              fun command hop => absurd ⟨command, hop⟩ happly) hstart
      refine (hu.timelocked hnext).of_due ?_
      rintro a ⟨entry, hentry, free, -, hmem⟩
      rcases hreached.pumped hmono hok hshallow hlag hallowed with hnone | hquiet
      · rw [coming, hnone] at hmem
        cases hmem
      · rw [hquiet.log, List.drop_length] at hentry
        cases hentry

/-- In a venue without lag, whatever is deposited and withdrawn, lost, resubmitted, rewound and
    replayed: an inclusion fails for time, for room or for being a second one, and for money
    only where the withdrawal delay is short, and only for the money of its requester. -/
theorem inclusion_excused (hreached : Reached config clocks Orderly h) (hmono : Monotone clocks.engine)
    (hclocks : clocks.chain = clocks.engine) (hshallow : config.confirmations = 0)
    (hlag : config.maxIndexerLag = 0) (hnext : h.custody.log.nextTx < u64Max) :
    ∀ i ∈ h.included, Inclusion.Excused (¬ config.Outlasting) i := by
  have hs : Timelocked clocks config.Outlasting (fun _ _ => True) (fun _ => False) h :=
    hreached.timelocked hmono hclocks (fun _ _ => id) .inl (fun _ _ _ _ _ _ _ _ _ _ _ _ _ _ => trivial) hshallow hlag
      hnext
  exact hs.excused

end Harness

/-- A venue without lag, with the shortest withdrawal delay its other terms allow. -/
def Config.brief : Config := { Config.small with
  withdrawalDelay := 151, confirmations := 0, maxIndexerLag := 0, maxSettlementInclusionTime := 0 }

example : Config.brief.validate = .ok () := rfl

namespace Harness

def brief : Harness := start ⟨Config.brief, Ledger.new Config.brief, 0⟩

/-- Two clocks that agree, at 99 after six readings and at 160 after eight. -/
def twoSteps : Clocks :=
  ⟨fun n => if n < 6 then 0 else if n < 8 then 99 else 160,
    fun n => if n < 6 then 0 else if n < 8 then 99 else 160⟩

/-- The requester withdraws, is quoted and accepts at the last moment, and is paid its
    withdrawal before the bundle is included. -/
def withdrawOps : List HarnessOp :=
  [.deposit 0 1200000, .deposit 1 2000000, .apply (.registerContract 0 1000),
    .apply (.submitRequest 0 100 [⟨0, .yes, 2, 600000⟩]), .requestWithdrawal 0 1200000,
    .apply (.submitQuote 1 ⟨0, 0⟩ 0 500000 2 199), .apply (.acceptRequest ⟨0, 0⟩ [⟨0, 500000⟩]),
    .submitPending, .executeWithdrawal 0, .includeAll]

theorem monotone_twoSteps : Monotone twoSteps.engine := by
  intro n m hle
  simp only [twoSteps]
  split_ifs <;> omega

theorem inclusion_excused_withdrawn :
    (brief.run twoSteps withdrawOps).included.map (fun i => i.tx.outcome) =
        [.error (.insufficientFunds 0)] ∧
      ∀ i ∈ (brief.run twoSteps withdrawOps).included, Inclusion.Excused (¬ Config.brief.Outlasting) i := by
  have hnew : new Config.brief = .ok brief := rfl
  have hreached : Reached Config.brief twoSteps Orderly (brief.run twoSteps withdrawOps) :=
    (Reached.new hnew).run withdrawOps
      (by simp [withdrawOps, Lets, Orderly, Straight, Command.isGateway])
  exact ⟨by decide +kernel, inclusion_excused hreached monotone_twoSteps rfl rfl rfl (by decide +kernel)⟩

/-- The timelock protects makers: whatever they withdraw, an inclusion never fails for the money
    of an account that is only a maker of the bundle. -/
theorem makers_funded (hreached : Reached config clocks Orderly h) (hmono : Monotone clocks.engine)
    (hclocks : clocks.chain = clocks.engine) (hshallow : config.confirmations = 0)
    (hlag : config.maxIndexerLag = 0) (hallocated : h.custody.log.Allocated) :
    ∀ i ∈ h.included, ∀ a, i.tx.outcome = .error (.insufficientFunds a) → a = i.bundle.requester := by
  have hnext := hallocated.nextTx_lt (hreached.minted fun _ _ => Orderly.unforked)
  have hs : Timelocked clocks config.Outlasting (fun _ _ => True) (fun _ => False) h :=
    hreached.timelocked hmono hclocks (fun _ _ => id) .inl (fun _ _ _ _ _ _ _ _ _ _ _ _ _ _ => trivial)
      hshallow hlag hnext
  exact fun i hi a ha => (hs.excused i hi).requester ha

/-- The requester's withdrawal takes the money, and no maker's. -/
theorem makers_funded_withdrawn :
    (brief.run twoSteps withdrawOps).included.map (fun i => i.tx.outcome) =
        [.error (.insufficientFunds 0)] ∧
      ∀ i ∈ (brief.run twoSteps withdrawOps).included, ∀ a,
        i.tx.outcome = .error (.insufficientFunds a) → a = i.bundle.requester := by
  have hnew : new Config.brief = .ok brief := rfl
  have hreached : Reached Config.brief twoSteps Orderly (brief.run twoSteps withdrawOps) :=
    (Reached.new hnew).run withdrawOps
      (by simp [withdrawOps, Lets, Orderly, Straight, Command.isGateway])
  exact ⟨by decide +kernel, makers_funded hreached monotone_twoSteps rfl rfl rfl (by decide +kernel)⟩

/-- And requesters, in every run whose accepts are outlived by the withdrawals that are pending
    then: an inclusion never fails for the money of anyone. -/
theorem requesters_funded
    (hreached : Reached config clocks (fun h op => Orderly h op ∧ Outlived clocks h op) h)
    (hmono : Monotone clocks.engine) (hclocks : clocks.chain = clocks.engine)
    (hshallow : config.confirmations = 0) (hlag : config.maxIndexerLag = 0)
    (hallocated : h.custody.log.Allocated) :
    ∀ i ∈ h.included, ∀ a, i.tx.outcome ≠ .error (.insufficientFunds a) := by
  have hnext := hallocated.nextTx_lt (hreached.minted fun _ _ hok => hok.1.unforked)
  have hs : Timelocked clocks True (fun _ _ => True) (fun _ => False) h :=
    hreached.timelocked hmono hclocks (fun _ _ hok => hok.1) (fun _ => .inr fun _ _ hok => hok.2)
      (fun _ _ _ _ _ _ _ _ _ _ _ _ _ _ => trivial) hshallow hlag hnext
  exact fun i hi a ha => (hs.excused i hi).short ha trivial

/-- As `withdrawOps`, filling a quote that expires before the withdrawal matures. -/
def outlivedOps : List HarnessOp :=
  [.deposit 0 1200000, .deposit 1 2000000, .apply (.registerContract 0 1000),
    .apply (.submitRequest 0 100 [⟨0, .yes, 2, 600000⟩]), .requestWithdrawal 0 1200000,
    .apply (.submitQuote 1 ⟨0, 0⟩ 0 500000 2 150), .apply (.acceptRequest ⟨0, 0⟩ [⟨0, 500000⟩]),
    .submitPending, .executeWithdrawal 0, .includeAll]

theorem lets_outlivedOps :
    Lets twoSteps (fun h op => Orderly h op ∧ Outlived twoSteps h op) brief outlivedOps := by
  simp only [outlivedOps, Lets, and_true]
  refine ⟨⟨trivial, ?_⟩, ⟨trivial, ?_⟩, ⟨rfl, ?_⟩, ⟨rfl, ?_⟩, ⟨trivial, ?_⟩, ⟨rfl, ?_⟩, ⟨rfl, ?_⟩,
    ⟨trivial, ?_⟩, ⟨trivial, ?_⟩, ⟨trivial, ?_⟩⟩
  case refine_7 =>
    -- the withdrawal matures at 151, and the quote is the best on the only leg
    rintro _ _ y ⟨⟩ hr - m b - hb - -
    obtain rfl : _ = y := Option.some.inj hr
    obtain rfl : _ = b := Option.some.inj hb
    exact ⟨_, List.mem_cons_self, ⟨⟨0, 0⟩, 500000⟩, _, rfl, rfl, by decide⟩
  all_goals
    rintro _ _ _ ⟨⟩

/-- Custody finds the quote expired, not the money gone. -/
theorem requesters_funded_outlived :
    (brief.run twoSteps outlivedOps).included.map (fun i => i.tx.outcome) =
        [.error (.quoteExpired 0)] ∧
      ∀ i ∈ (brief.run twoSteps outlivedOps).included, ∀ a,
        i.tx.outcome ≠ .error (.insufficientFunds a) := by
  have hnew : new Config.brief = .ok brief := rfl
  have hreached : Reached Config.brief twoSteps (fun h op => Orderly h op ∧ Outlived twoSteps h op)
      (brief.run twoSteps outlivedOps) := (Reached.new hnew).run outlivedOps lets_outlivedOps
  exact ⟨by decide +kernel, requesters_funded hreached monotone_twoSteps rfl rfl rfl (by decide +kernel)⟩

/-- A quote of the longest term, accepted at the request's deadline, outlasts the withdrawal its
    requester asked for when the request was opened. -/
theorem requester_withdraws_first :
    ¬ ∀ (config : Config) (clocks : Clocks) (h : Harness), Reached config clocks Orderly h →
      Monotone clocks.engine → clocks.chain = clocks.engine → config.confirmations = 0 →
        config.maxIndexerLag = 0 → config.maxSettlementInclusionTime = 0 →
          ∀ i ∈ h.included, i.tx.outcome ≠ .error (.insufficientFunds i.bundle.requester) := by
  intro hfunded
  have hnew : new Config.brief = .ok brief := rfl
  have hreached : Reached Config.brief twoSteps Orderly (brief.run twoSteps withdrawOps) :=
    (Reached.new hnew).run withdrawOps
      (by simp [withdrawOps, Lets, Orderly, Straight, Command.isGateway])
  have hall := hfunded _ _ _ hreached monotone_twoSteps rfl rfl rfl rfl
  exact absurd hall (by decide +kernel)

end Harness

end RfqSettlement
