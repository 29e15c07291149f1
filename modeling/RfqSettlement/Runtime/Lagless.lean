/-
  RfqSettlement.Runtime.Lagless

  A venue that declares no lag: no confirmations, no indexer that stands still.

  Every operation that logs something pumps the indexer before it ends, so between
  two operations nothing waits, and the mirror of an account is exactly what custody
  has available for it (`Reached.synced`).
-/

import RfqSettlement.Chain.Announcing
import RfqSettlement.Runtime.Mirroring
import RfqSettlement.Runtime.Custodial

namespace RfqSettlement

namespace Indexer

variable {indexer : Indexer} {log : ChainLog}

theorem confirmations_drain : (indexer.drain log).2.confirmations = indexer.confirmations := by
  unfold drain
  split
  · rfl
  · exact drainFrom_confirmations

/-- With every entry deep enough, a drain leaves nothing behind. -/
theorem backlog_drain (h : (indexer.drain log).2.Tracks log)
    (hdeep : ∀ x ∈ log.entries, x.block + indexer.confirmations ≤ log.head) :
    (indexer.drain log).2.backlog log = [] := by
  refine h.backlog_eq_nil ?_
  have hwithin := h.cursor
  unfold drain at hwithin ⊢
  cases hhorizon : indexer.horizon log.head with
  | none =>
      rw [hhorizon] at hwithin
      dsimp only at hwithin ⊢
      have hempty : log.entries = [] := by
        refine List.eq_nil_iff_forall_not_mem.mpr fun x hx => ?_
        have hle := hdeep x hx
        rw [horizon, checkedSub, if_pos (by omega)] at hhorizon
        cases hhorizon
      rw [hempty] at hwithin ⊢
      exact Nat.le_antisymm hwithin (Nat.zero_le _)
  | some horizon =>
      have hhead := horizon_eq_some hhorizon
      rw [hhorizon] at hwithin
      dsimp only at hwithin ⊢
      have hready : ∀ entry ∈ log.entries.drop indexer.cursor, deep horizon entry = true := by
        intro entry hentry
        have hle := hdeep entry (List.mem_of_mem_drop hentry)
        exact decide_eq_true (by omega)
      rw [drainFrom_cursor, List.takeWhile_eq_self_iff.mpr hready, List.length_drop] at hwithin ⊢
      omega

end Indexer

namespace Harness

variable {config : Config} {clocks : Clocks} {ok : Harness → HarnessOp → Prop} {op : HarnessOp}
  {h h' h₁ : Harness} {commands commands' : List Command} {command : Command}
  {bundles : List Bundle} {payloads : List ChainPayload} {now a : Nat}

/-- Nothing reaches custody but through the harness, and the chain is not reorganised. -/
def Orderly (h : Harness) : HarnessOp → Prop
  | .reorg _ => False
  | op => Straight h op

theorem Orderly.straight (hok : Orderly h op) : Straight h op := by
  cases op with
  | reorg => exact hok.elim
  | _ => exact hok

/-- Gateway commands straight to the engine, and a chain that is not reorganised. -/
def Unforked (_ : Harness) : HarnessOp → Prop
  | .apply command => command.isGateway = true
  | .reorg _ => False
  | _ => True

theorem Orderly.unforked (hok : Orderly h op) : Unforked h op := by
  cases op with
  | apply => exact hok
  | reorg => exact hok
  | _ => trivial

/-- The commands of everything ever logged. -/
def logged (h : Harness) : List Command := h.indexer.forgetEverything.backlog h.custody.log

/-- An account's mirror is what custody has available for it. -/
def Synced (h : Harness) : Prop :=
  ∀ a t, h.engine.market.totals a = some t → t.free = h.custody.available a

/-- The mirror, brought forward by what is still coming, is what is available; and it is
    that again when everything logged comes once more. -/
structure Follows (h : Harness) (commands : List Command) : Prop where
  confirmations : h.indexer.confirmations = h.engine.config.confirmations
  live : h.engine.config.maxIndexerLag = 0 → h.indexerStalled = false
  drained : ∀ x ∈ commands, x ∈ h.logged
  current : h.custody.log.nextTx < u64Max → ∀ a t, h.engine.market.totals a = some t →
    lastCredit a (h.coming commands) t.free = h.custody.available a
  replayed : h.custody.log.nextTx < u64Max → ∀ a t, h.engine.market.totals a = some t →
    lastCredit a h.logged t.free = h.custody.available a

theorem follows_new (hnew : new config = .ok h) : Follows h [] := by
  obtain ⟨engine, hengine, rfl⟩ := new_eq_ok hnew
  obtain ⟨-, rfl⟩ := Engine.new_eq_ok hengine
  have havailable : ∀ a, (CustodyLedger.new config.withdrawalDelay config.maxAccounts
      config.maxEscrows).available a = 0 := by
    intro a
    rw [CustodyLedger.available, CustodyLedger.account, CustodyLedger.new, List.getElem?_replicate]
    split <;> rfl
  refine ⟨rfl, fun _ => rfl, by simp, fun _ a t ht => ?_, fun _ a t ht => ?_⟩
  · rw [Engine.totals_new ht]
    exact (havailable a).symm
  · rw [Engine.totals_new ht]
    exact (havailable a).symm

/-- After a credit for the account, it no longer matters what it had. -/
theorem lastCredit_of_mem {free : Nat} (hmem : .creditAccount a free ∈ commands) (x y : Nat) :
    lastCredit a commands x = lastCredit a commands y := by
  induction commands generalizing x y with
  | nil => cases hmem
  | cons command commands ih =>
      rcases List.mem_cons.mp hmem with rfl | hrest
      · simp [lastCredit]
      · cases command <;> exact ih hrest _ _

/-- A command to the engine, no credit unless it was drained. -/
theorem Follows.turn (hf : Follows h commands) (hsane : h.engine.Sane)
    (hengine : h'.engine = h.engine.step (h.input clocks command)) (hcustody : h'.custody = h.custody)
    (hindexer : h'.indexer = h.indexer) (hstalled : h'.indexerStalled = h.indexerStalled)
    (hsub : ∀ x ∈ commands', x ∈ commands)
    (hcredit : ∀ a free, command = .creditAccount a free → command ∈ commands)
    (hnext : ∀ a free, lastCredit a commands' (lastCredit a [command] free) = lastCredit a commands free) :
    Follows h' commands' := by
  have hlogged : h'.logged = h.logged := by rw [logged, logged, hindexer, hcustody]
  have hbefore : ∀ a t', h'.engine.market.totals a = some t' →
      ∃ t, h.engine.market.totals a = some t ∧ t'.free = lastCredit a [command] t.free := by
    intro a t' ht'
    rw [hengine] at ht'
    obtain ⟨t, ht⟩ := Option.isSome_iff_exists.mp
      ((hsane.totals_step (h.input clocks command)).symm.trans (by rw [ht']; rfl))
    exact ⟨t, ht, hsane.free_step _ ht ht'⟩
  have hconfig : h'.engine.config = h.engine.config := by
    rw [hengine]
    exact hsane.config_step _
  refine ⟨by rw [hindexer, hconfig, hf.confirmations], fun hlag => ?_, fun x hx => ?_,
    fun hlast a t' ht' => ?_, fun hlast a t' ht' => ?_⟩
  · rw [hstalled]
    exact hf.live (hconfig ▸ hlag)
  · rw [hlogged]
    exact hf.drained x (hsub x hx)
  · obtain ⟨t, ht, hfree⟩ := hbefore a t' ht'
    rw [hcustody] at hlast ⊢
    rw [coming, hindexer, hcustody, lastCredit_append, hfree, hnext, ← lastCredit_append]
    exact hf.current hlast a t ht
  · obtain ⟨t, ht, hfree⟩ := hbefore a t' ht'
    rw [hcustody] at hlast ⊢
    rw [hlogged, hfree, ← hf.replayed hlast a t ht]
    by_cases hone : ∃ free, command = .creditAccount a free
    · obtain ⟨free, rfl⟩ := hone
      exact lastCredit_of_mem (hf.drained _ (hcredit a free rfl)) _ _
    · rw [lastCredit_of_not_credit fun free heq => hone ⟨free, heq⟩]

/-- Custody writes to its log. -/
theorem Follows.wrote (hf : Follows h []) (htracks : h.indexer.Tracks h.custody.log)
    (hengine : h'.engine = h.engine) (hindexer : h'.indexer = h.indexer)
    (hstalled : h'.indexerStalled = h.indexerStalled)
    (hinforms : CustodyLedger.Informs h.custody h'.custody) : Follows h' [] := by
  refine ⟨by rw [hindexer, hengine, hf.confirmations], fun hlag => ?_, by simp,
    fun hlast a t ht => ?_, fun hlast a t ht => ?_⟩
  · rw [hstalled]
    exact hf.live (hengine ▸ hlag)
  · rw [hengine] at ht
    rw [coming, hindexer, List.nil_append]
    exact hinforms.current htracks hlast fun hbefore => hf.current hbefore a t ht
  · rw [hengine] at ht
    rw [logged, hindexer]
    exact hinforms.current htracks.forgetEverything hlast fun hbefore => hf.replayed hbefore a t ht

/-- A block is mined, and nothing is logged. -/
theorem Follows.mined (hf : Follows h []) (hengine : h'.engine = h.engine)
    (hindexer : h'.indexer = h.indexer) (hstalled : h'.indexerStalled = h.indexerStalled)
    (hcustody : h'.custody = { h.custody with log := h.custody.log.advanceBlock }) : Follows h' [] := by
  refine ⟨by rw [hindexer, hengine, hf.confirmations], fun hlag => ?_, by simp,
    fun hlast a t ht => ?_, fun hlast a t ht => ?_⟩
  · rw [hstalled]
    exact hf.live (hengine ▸ hlag)
  · rw [hcustody] at hlast ⊢
    rw [coming, hindexer, hcustody]
    exact hf.current hlast a t (hengine ▸ ht)
  · rw [hcustody] at hlast ⊢
    rw [logged, hindexer, hcustody]
    exact hf.replayed hlast a t (hengine ▸ ht)

/-- What a move does to custody where the chain is not reorganised.  What settles a bundle
    that was never submitted is an operation of `own`. -/
inductive CustodyMove (own : CustodyOp → Prop) (l : CustodyLedger) : CustodyLedger → Prop where
  | same : CustodyMove own l l
  | performed {custodyOp : CustodyOp} (hsubmits : custodyOp.submits = true ∨ own custodyOp) :
      CustodyMove own l (l.perform custodyOp)
  | logged {payload : ChainPayload} (hrequest : isRequest payload = true) :
      CustodyMove own l { l with log := l.log.append payload }
  | mined : CustodyMove own l { l with log := l.log.advanceBlock }

theorem Move.custody (hmove : Move clocks ok op h commands h' commands')
    (hok : ∀ h op, ok h op → Unforked h op) :
    CustodyMove (fun custodyOp => ok h (.custody custodyOp)) h.custody h'.custody := by
  have hperform : ∀ custodyOp : CustodyOp, custodyOp.submits = true →
      CustodyMove (fun custodyOp => ok h (.custody custodyOp)) h.custody (h.custody.perform custodyOp) :=
    fun _ hsubmits => .performed (.inl hsubmits)
  cases hmove with
  | @deposited account amount => exact hperform (.ledger (.deposit account amount)) rfl
  | @requested account amount =>
      exact hperform (.ledger (.requestWithdrawal account amount (clocks.chain h.reads))) rfl
  | @executed account => exact hperform (.ledger (.executeWithdrawal account (clocks.chain h.reads))) rfl
  | @sent bundle => exact hperform (.submit bundle) rfl
  | @resent request bundle => exact hperform (.submit bundle) rfl
  | lost => exact hperform .dropNextSubmission rfl
  | included => exact hperform (.includeNext [] (clocks.chain h.reads)) rfl
  | @paid intent =>
      cases intent with
      | settleIntent escrow contract outcome =>
          exact hperform (.ledger (.settleEscrow escrow contract outcome)) rfl
      | _ => exact .same
  | logged hrequest => exact .logged hrequest
  | mined => exact .mined
  | @reorged block hop hallowed =>
      have hnever : Unforked h (.reorg block) := hop ▸ hok h op hallowed
      exact hnever.elim
  | handled hop hallowed => exact .performed (.inr (hop ▸ hallowed))
  | _ => exact .same

/-- Custody logs what it changes, or a block is mined. -/
theorem CustodyMove.informs {own : CustodyOp → Prop} {l l' : CustodyLedger} (hmoved : CustodyMove own l l') :
    CustodyLedger.Informs l l' ∨ l' = { l with log := l.log.advanceBlock } := by
  cases hmoved with
  | same => exact .inl (.refl l)
  | performed => exact .inl (CustodyLedger.informs_perform _)
  | @logged payload hrequest =>
      refine .inl (CustodyLedger.informs_append rfl rfl ?_)
      rintro a v rfl
      cases hrequest
  | mined => exact .inr rfl

theorem Move.informs (hmove : Move clocks ok op h commands h' commands')
    (hok : ∀ h op, ok h op → Unforked h op) :
    CustodyLedger.Informs h.custody h'.custody ∨
      h'.custody = { h.custody with log := h.custody.log.advanceBlock } :=
  (hmove.custody hok).informs

/-- The log only grows. -/
theorem Move.entries (hmove : Move clocks ok op h commands h' commands')
    (hok : ∀ h op, ok h op → Unforked h op) :
    h.custody.log.entries <+: h'.custody.log.entries := by
  rcases hmove.informs hok with ⟨payloads, hlog, -⟩ | hmined
  · obtain ⟨added, hadded, -⟩ := ChainLog.entries_appends payloads h.custody.log
    rw [hlog, hadded]
    exact List.prefix_append _ _
  · rw [hmined]
    exact List.prefix_refl _

/-- Every hash minted stands on an entry of the log. -/
theorem Reached.minted (hreached : Reached config clocks ok h) (hok : ∀ h op, ok h op → Unforked h op) :
    h.custody.log.nextTx ≤ h.custody.log.entries.length := by
  refine hreached.induct (P := fun h _ => h.custody.log.nextTx ≤ h.custody.log.entries.length)
    (fun h hnew => ?_) fun op h commands h' commands' hmove hminted => ?_
  · obtain ⟨engine, -, rfl⟩ := new_eq_ok hnew
    exact Nat.le_refl _
  · rcases hmove.informs hok with ⟨payloads, hlog, -⟩ | hmined
    · rw [hlog]
      exact ChainLog.nextTx_le_appends payloads hminted
    · rw [hmined]
      exact hminted

/-- Nothing that was coming is lost: it is still coming, or it was just delivered. -/
theorem Move.coming (hmove : Move clocks ok op h commands h' commands')
    (htracks : h.indexer.Tracks h.custody.log) (hok : ∀ h op, ok h op → Unforked h op) :
    ∀ x ∈ h.coming commands, x ∈ h'.coming commands' ∨ commands = x :: commands' := by
  have hwrote : ∀ h₁ : Harness, (CustodyLedger.Informs h.custody h₁.custody ∨
      h₁.custody = { h.custody with log := h.custody.log.advanceBlock }) →
        h₁.indexer = h.indexer → ∀ x ∈ h.coming [], x ∈ h₁.coming [] := by
    intro h₁ hinforms hindexer x hx
    rw [Harness.coming, List.nil_append] at hx ⊢
    rw [hindexer]
    rcases hinforms with ⟨payloads, hlog, -⟩ | hmined
    · obtain ⟨more, -, hbacklog, -⟩ := Indexer.backlog_appends htracks payloads
      rw [hlog, hbacklog]
      exact List.mem_append_left _ hx
    · rw [hmined]
      exact hx
  have hinforms := hmove.informs hok
  cases hmove with
  | @delivered command commands =>
      intro x hx
      rcases List.mem_cons.mp hx with rfl | hx
      · exact .inr rfl
      · exact .inl hx
  | drained =>
      intro x hx
      obtain ⟨-, hfront⟩ := htracks.drain
      rw [Harness.coming, List.nil_append, hfront] at hx
      exact .inl hx
  | forgot => exact fun x hx => .inl (Indexer.backlog_forgetEverything hx)
  | rewound => exact fun x hx => .inl hx
  | _ => exact fun x hx => .inl (hwrote _ hinforms rfl x hx)

theorem Follows.move (hf : Follows h commands) (hsane : h.engine.Sane)
    (htracks : h.indexer.Tracks h.custody.log) (hmove : Move clocks ok op h commands h' commands')
    (hok : ∀ h op, ok h op → Unforked h op) : Follows h' commands' := by
  have haside : ∀ {command : Command}, commands = [] → (∀ a free, command ≠ .creditAccount a free) →
      Follows (h.apply clocks command).2 [] := by
    rintro command rfl hcredit
    refine hf.turn hsane rfl rfl rfl rfl (by simp) ?_ ?_
    · exact fun a free heq => absurd heq (hcredit a free)
    · exact fun a free => lastCredit_of_not_credit (hcredit a)
  have hinforms := hmove.informs hok
  cases hmove with
  | @applied command hop hallowed =>
      have hgateway : Unforked h (.apply command) := hop ▸ hok h op hallowed
      refine haside rfl ?_
      rintro a free rfl
      cases hgateway
  | polled => exact haside rfl (by simp)
  | @delivered command commands =>
      refine hf.turn hsane rfl rfl rfl rfl
        (fun x hx => List.mem_cons_of_mem _ hx) (fun _ _ _ => List.mem_cons_self) fun a free => ?_
      rw [← lastCredit_append, List.singleton_append]
  | drained =>
      obtain ⟨-, hfront⟩ := htracks.drain
      refine ⟨Indexer.confirmations_drain.trans hf.confirmations, hf.live, fun x hx => ?_,
        fun hlast a t ht => ?_, hf.replayed⟩
      · have hall : h.indexer.backlog h.custody.log ⊆ h.logged := Indexer.backlog_forgetEverything
        refine hall ?_
        rw [hfront]
        exact List.mem_append_left _ hx
      · have hcurrent := hf.current hlast a t ht
        rw [coming, List.nil_append, hfront] at hcurrent
        exact hcurrent
  | stalled hop hallowed hlag =>
      refine ⟨hf.confirmations, fun hnone => ?_, by simp, hf.current, hf.replayed⟩
      exact absurd (show h.engine.config.maxIndexerLag = 0 from hnone) (Nat.ne_of_gt hlag)
  | resumed => exact ⟨hf.confirmations, fun _ => rfl, by simp, hf.current, hf.replayed⟩
  | rewound => exact ⟨hf.confirmations, hf.live, by simp, hf.current, hf.replayed⟩
  | forgot => exact ⟨hf.confirmations, hf.live, by simp, hf.replayed, hf.replayed⟩
  | _ =>
      rcases hinforms with hinforms | hmined
      · exact hf.wrote htracks rfl rfl rfl hinforms
      · exact hf.mined rfl rfl rfl hmined

-- ============================================================================
-- Between two operations
-- ============================================================================

@[simp] theorem custody_foldl_deliver :
    (commands.foldl (deliver clocks) h).custody = h.custody := by
  induction commands generalizing h with
  | nil => rfl
  | cons command commands ih => exact ih

@[simp] theorem indexer_foldl_deliver :
    (commands.foldl (deliver clocks) h).indexer = h.indexer := by
  induction commands generalizing h with
  | nil => rfl
  | cons command commands ih => exact ih

@[simp] theorem indexerStalled_foldl_deliver :
    (commands.foldl (deliver clocks) h).indexerStalled = h.indexerStalled := by
  induction commands generalizing h with
  | nil => rfl
  | cons command commands ih => exact ih

/-- A pump ends with nothing waiting, once every entry is deep enough. -/
theorem backlog_pumpIndexer
    (htracks : (h₁.pumpIndexer clocks).2.indexer.Tracks (h₁.pumpIndexer clocks).2.custody.log)
    (hlive : (h₁.pumpIndexer clocks).2.indexerStalled = false)
    (hdeep : ∀ x ∈ (h₁.pumpIndexer clocks).2.custody.log.entries,
      x.block + (h₁.pumpIndexer clocks).2.indexer.confirmations ≤
        (h₁.pumpIndexer clocks).2.custody.log.head) :
    (h₁.pumpIndexer clocks).2.indexer.backlog (h₁.pumpIndexer clocks).2.custody.log = [] := by
  unfold pumpIndexer at *
  split at hlive
  next hstalled =>
    rw [hlive] at hstalled
    cases hstalled
  next hrunning =>
    rw [if_neg hrunning] at *
    dsimp only at *
    simp only [custody_foldl_deliver, indexer_foldl_deliver, Indexer.confirmations_drain] at *
    exact Indexer.backlog_drain htracks hdeep

/-- Custody's balances, its answers and its log stayed, and the engine was told no balance. -/
structure Quiet (clocks : Clocks) (h h' : Harness) : Prop where
  balances : h'.custody.balances = h.custody.balances
  log : h'.custody.log = h.custody.log
  resolved : h'.custody.resolved = h.custody.resolved
  engine : h'.engine = h.engine ∨ ∃ command, (∀ a free, command ≠ .creditAccount a free) ∧
    h'.engine = h.engine.step (h.input clocks command)

theorem quiet_apply (hcredit : ∀ a free, command ≠ .creditAccount a free) :
    Quiet clocks h (h.apply clocks command).2 :=
  ⟨rfl, rfl, rfl, .inr ⟨command, hcredit, rfl⟩⟩

theorem quiet_pollSettlement {request : ReqIdx} : Quiet clocks h (h.pollSettlement clocks request).2 := by
  unfold pollSettlement
  split
  · exact ⟨rfl, rfl, rfl, .inl rfl⟩
  next nonce _ =>
  dsimp only
  split
  · exact ⟨rfl, rfl, rfl, .inl rfl⟩
  have happly : Quiet clocks h (h.apply clocks (.pollSettlement nonce (h.custody.status nonce))).2 :=
    quiet_apply (by simp)
  split
  next heq =>
    rw [heq] at happly
    exact happly
  next heq =>
    rw [heq] at happly
    exact happly

theorem quiet_submitPending : Quiet clocks h h.submitPending := by
  have hsend : ∀ (bundles : List Bundle) (h₁ : Harness), h₁.custody.balances = h.custody.balances →
      h₁.custody.log = h.custody.log → h₁.custody.resolved = h.custody.resolved →
        h₁.engine = h.engine → Quiet clocks h (bundles.foldl send h₁) := by
    intro bundles
    induction bundles with
    | nil => exact fun h₁ hbalances hlog hresolved hengine => ⟨hbalances, hlog, hresolved, .inl hengine⟩
    | cons bundle bundles ih =>
        exact fun h₁ hbalances hlog hresolved hengine => ih _ hbalances hlog hresolved hengine
  exact hsend h.pending _ rfl rfl rfl rfl

/-- Every operation ends in a pump, or is quiet. -/
theorem perform_cases (clocks : Clocks) (h : Harness) (hok : Orderly h op) :
    (∃ h₁ : Harness, h.perform clocks op = (h₁.pumpIndexer clocks).2) ∨
      Quiet clocks h (h.perform clocks op) := by
  have hstill : ∀ {h' : Harness}, h'.custody.balances = h.custody.balances →
      h'.custody.log = h.custody.log → h'.custody.resolved = h.custody.resolved →
        h'.engine = h.engine → Quiet clocks h h' :=
    fun hbalances hlog hresolved hengine => ⟨hbalances, hlog, hresolved, .inl hengine⟩
  cases op with
  | apply command =>
      have hgateway : command.isGateway = true := hok
      refine .inr (quiet_apply ?_)
      rintro a free rfl
      cases hgateway
  | pollSettlement request => exact .inr quiet_pollSettlement
  | deposit account amount =>
      rw [perform, deposit]
      rcases CustodyLedger.deposit_cases h.custody account amount with ⟨err, heq⟩ | ⟨b, -, -, -, heq⟩
      · rw [heq]
        exact .inr (hstill rfl rfl rfl rfl)
      · rw [heq]
        exact .inl ⟨_, rfl⟩
  | requestWithdrawal account amount =>
      rw [perform, requestWithdrawal]
      rcases CustodyLedger.requestWithdrawal_cases h.custody account amount (clocks.chain h.reads) with
        ⟨err, heq⟩ | ⟨b, -, -, -, -, heq⟩
      · rw [heq]
        exact .inr (hstill rfl rfl rfl rfl)
      · rw [heq]
        exact .inl ⟨_, rfl⟩
  | executeWithdrawal account =>
      rw [perform, executeWithdrawal]
      rcases CustodyLedger.executeWithdrawal_cases h.custody account (clocks.chain h.reads) with
        ⟨err, heq⟩ | ⟨b, -, -, -, heq⟩
      · rw [heq]
        exact .inr (hstill rfl rfl rfl rfl)
      · rw [heq]
        exact .inl ⟨_, rfl⟩
  | submitPending => exact .inr quiet_submitPending
  | resubmit request =>
      refine .inr ?_
      rw [perform]
      unfold resubmit
      split <;> exact hstill rfl rfl rfl rfl
  | loseNextSubmission =>
      have hdrop : h.custody.dropNextSubmission.2.balances = h.custody.balances ∧
          h.custody.dropNextSubmission.2.log = h.custody.log ∧
          h.custody.dropNextSubmission.2.resolved = h.custody.resolved := by
        unfold CustodyLedger.dropNextSubmission
        split <;> exact ⟨rfl, rfl, rfl⟩
      exact .inr (hstill hdrop.1 hdrop.2.1 hdrop.2.2 rfl)
  | includeAll => exact .inl ⟨_, rfl⟩
  | applyPayouts => exact .inl ⟨_, rfl⟩
  | reportOracleStatus contract status => exact .inl ⟨_, rfl⟩
  | requestEscrowSettlement escrow contract outcome => exact .inl ⟨_, rfl⟩
  | advanceBlock => exact .inl ⟨_, rfl⟩
  | pumpIndexer => exact .inl ⟨h, rfl⟩
  | stallIndexer =>
      refine .inr ?_
      rw [perform]
      unfold stallIndexer
      split <;> exact hstill rfl rfl rfl rfl
  | resumeIndexer => exact .inl ⟨_, rfl⟩
  | rewind => exact .inr (hstill rfl rfl rfl rfl)
  | forgetEverything => exact .inr (hstill rfl rfl rfl rfl)
  | reorg block => exact hok.elim
  | custody custodyOp => exact (show Straight h (.custody custodyOp) from hok).elim

/-- Between two operations. -/
theorem Quiet.synced (hquiet : Quiet clocks h h') (ht : Timed config clocks h) (hsynced : Synced h) :
    Synced h' := by
  intro a t' ht'
  rw [CustodyLedger.available_congr hquiet.balances]
  rcases hquiet.engine with heq | ⟨command, hcredit, heq⟩
  · exact hsynced a t' (heq ▸ ht')
  · rw [heq] at ht'
    have heffect := ht.effect command
    obtain ⟨scope, hsteps⟩ := heffect.steps
    obtain ⟨t, htotals⟩ := Option.isSome_iff_exists.mp
      (hsteps.totals_isSome.symm.trans (by rw [ht']; rfl))
    obtain ⟨t'', ht'', hfree⟩ := free_turn heffect htotals
    obtain rfl := Option.some.inj (ht'.symm.trans ht'')
    rw [hfree, lastCredit_of_not_credit (hcredit a)]
    exact hsynced a t htotals

/-- What holds of the two systems and the wire between them in a venue without lag. -/
structure Lagless (config : Config) (clocks : Clocks) (h : Harness) (commands : List Command) : Prop where
  timed : Timed config clocks h
  agrees : Agrees h commands
  custodial : Custodial h
  follows : Follows h commands

theorem Lagless.move (hl : Lagless config clocks h commands) (hmono : Monotone clocks.engine)
    (hmove : Move clocks ok op h commands h' commands') (hok : ∀ h op, ok h op → Orderly h op) :
    Lagless config clocks h' commands' where
  timed := hl.timed.move hmono hmove
  agrees := hl.agrees.move hl.timed hmove fun h op hallowed => (hok h op hallowed).straight
  custodial := hl.custodial.move hl.timed hmove (fun h op hallowed => (hok h op hallowed).straight)
    fun h block hallowed => (hok h _ hallowed : Orderly h (.reorg block)).elim
  follows := hl.follows.move hl.timed.sane hl.custodial.tracks hmove
    fun h op hallowed => (hok h op hallowed).unforked

/-- Hashes only go up. -/
theorem Lagless.nextTx_le (hl : Lagless config clocks h commands)
    (hmove : Move clocks ok op h commands h' commands') (hok : ∀ h op, ok h op → Orderly h op) :
    h.custody.log.nextTx ≤ h'.custody.log.nextTx := by
  rcases hmove.informs fun h op hallowed => (hok h op hallowed).unforked with hinforms | hmined
  · exact hinforms.nextTx_le hl.custodial.tracks
  · rw [hmined]
    exact Nat.le_refl _

theorem lagless_new (hnew : new config = .ok h) : Lagless config clocks h [] :=
  ⟨timed_new hnew, agrees_new hnew, custodial_new hnew, follows_new hnew⟩

theorem Reached.lagless (hreached : Reached config clocks ok h) (hmono : Monotone clocks.engine)
    (hok : ∀ h op, ok h op → Orderly h op) : Lagless config clocks h [] :=
  hreached.induct (P := fun h commands => Lagless config clocks h commands)
    (fun _ hnew => lagless_new hnew) fun _ _ _ _ _ hmove hl => hl.move hmono hmove hok

/-- An operation of a venue without lag ends with nothing coming, or is quiet. -/
theorem Reached.pumped (hreached : Reached config clocks ok h) (hmono : Monotone clocks.engine)
    (hok : ∀ h op, ok h op → Orderly h op) (hshallow : config.confirmations = 0)
    (hlag : config.maxIndexerLag = 0) (hallowed : ok h op) :
    (h.perform clocks op).indexer.backlog (h.perform clocks op).custody.log = [] ∨
      Quiet clocks h (h.perform clocks op) := by
  rcases perform_cases clocks h (hok h op hallowed) with ⟨h₁, hpump⟩ | hquiet
  · have hl := (hreached.perform op hallowed).lagless hmono hok
    rw [hpump] at hl ⊢
    have hconfig := hl.timed.config_eq
    have hlive := hl.follows.live (hconfig ▸ hlag)
    have hconf := hl.follows.confirmations.trans (hconfig ▸ hshallow)
    refine .inl (backlog_pumpIndexer hl.custodial.tracks hlive fun x hx => ?_)
    rw [hconf]
    exact hl.custodial.tracks.below x hx
  · exact .inr hquiet

/-- Between two operations of a venue without lag every mirror is exact, as long as the log
    mints fresh hashes. -/
theorem Reached.synced (hreached : Reached config clocks ok h) (hmono : Monotone clocks.engine)
    (hok : ∀ h op, ok h op → Orderly h op) (hshallow : config.confirmations = 0)
    (hlag : config.maxIndexerLag = 0) (hnext : h.custody.log.nextTx < u64Max) : Synced h := by
  induction hreached with
  | new hnew =>
      intro a t ht
      have hcurrent := (follows_new hnew).current hnext a t ht
      obtain ⟨engine, -, rfl⟩ := new_eq_ok hnew
      exact hcurrent
  | @perform h hreached op hallowed ih =>
      have hl := (hreached.perform op hallowed).lagless hmono hok
      rcases hreached.pumped hmono hok hshallow hlag hallowed with hnone | hquiet
      · intro a t ht
        have hcurrent := hl.follows.current hnext a t ht
        rw [coming, hnone] at hcurrent
        exact hcurrent
      · exact hquiet.synced (hreached.lagless hmono hok).timed (ih (hquiet.log ▸ hnext))

end Harness

end RfqSettlement
