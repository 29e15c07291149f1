/-
  RfqSettlement.Chain.ExactlyOnce

  A nonce reaches one terminal answer, settles at most once, and is announced once.

  The fate of a nonce stands in the resolved map, in the receipts handed back by
  inclusions and in the log.  `Answered` says that the three agree; each operation
  that submissions pass through keeps it.
-/

import RfqSettlement.Chain.Growth
import RfqSettlement.Chain.Operations

namespace RfqSettlement

-- ============================================================================
-- Announcements
-- ============================================================================

/-- The answers the log holds for a nonce, oldest first. -/
def ChainLog.resolutions (log : ChainLog) (nonce : Nonce) : List TxStatus :=
  log.entries.filterMap fun entry =>
    match entry.payload with
    | .settlementResolved announced status => if announced = nonce then some status else none
    | _ => none

theorem ChainLog.resolutions_append_balance (log : ChainLog) (account available : Nat)
    (nonce : Nonce) :
    (log.append (.balanceChanged account available)).resolutions nonce = log.resolutions nonce := by
  simp [resolutions, append, List.filterMap_append]

theorem ChainLog.resolutions_append_resolved (log : ChainLog) (announced nonce : Nonce)
    (status : TxStatus) :
    (log.append (.settlementResolved announced status)).resolutions nonce =
      log.resolutions nonce ++ if announced = nonce then [status] else [] := by
  rw [resolutions, append, List.filterMap_append]
  by_cases h : announced = nonce
  · simp [h, resolutions]
  · simp [h, resolutions]

namespace CustodyLedger

variable {l l' : CustodyLedger} {nonce : Nonce} {bundle : Bundle} {txs : List IncludedTx}

/-- The log says of every settlement what it said before. -/
def SameResolutions (l l' : CustodyLedger) : Prop :=
  ∀ nonce, l'.log.resolutions nonce = l.log.resolutions nonce

/-- Balances logged say nothing of settlements. -/
theorem sameResolutions_of_extends (h : l.log.Extends ChainPayload.isBalance l'.log) :
    SameResolutions l l' := by
  obtain ⟨payloads, hall, heq⟩ := h
  intro nonce
  rw [heq]
  clear heq
  generalize l.log = log
  induction payloads generalizing log with
  | nil => rfl
  | cons payload payloads ih =>
      obtain ⟨hbalance, hrest⟩ := List.forall_mem_cons.mp hall
      cases payload with
      | balanceChanged account available =>
          exact (ih hrest (log.append (.balanceChanged account available))).trans
            (ChainLog.resolutions_append_balance log account available nonce)
      | _ => cases hbalance

/-- No ledger operation of a hook announces anything. -/
theorem sameResolutions_apply (op : LedgerOp) : SameResolutions l (op.apply l) :=
  sameResolutions_of_extends (extends_apply op)

theorem sameResolutions_fire (hook : List LedgerOp) : SameResolutions l (l.fire hook) :=
  sameResolutions_of_extends (extends_fire hook)

theorem sameResolutions_commitBundle (bundle : Bundle) (debits : Debits) :
    SameResolutions l (l.commitBundle bundle debits) :=
  sameResolutions_of_extends (extends_commitBundle bundle debits)

-- ============================================================================
-- Receipts
-- ============================================================================

/-- The escrows an inclusion formed. -/
def IncludedTx.formed (tx : IncludedTx) : Nat :=
  match tx.outcome with
  | .ok receipt => receipt.escrows.length
  | .error _ => 0

/-- Whether an inclusion settled the nonce. -/
def IncludedTx.settles (tx : IncludedTx) (nonce : Nonce) : Bool :=
  match tx.outcome with
  | .ok _ => decide (tx.nonce = nonce)
  | .error _ => false

/-- What an operation hands back. -/
def included (l : CustodyLedger) : CustodyOp → List IncludedTx
  | .includeNext hook now => (l.includeNext hook now).1.toList
  | .includeAll hook clock => (l.includeAll hook clock).1
  | .ledger _ | .submit _ | .dropNextSubmission | .precheck .. | .settle .. => []

/-- What a run hands back. -/
def receipts (l : CustodyLedger) : List CustodyOp → List IncludedTx
  | [] => []
  | op :: ops => l.included op ++ (l.perform op).receipts ops

-- ============================================================================
-- The invariant
-- ============================================================================

/-- The resolved map, the receipts and the log agree on every nonce. -/
structure Answered (l : CustodyLedger) (txs : List IncludedTx) : Prop where
  terminal : ∀ nonce status, l.resolved nonce = some status → status.isTerminal = true
  announced : ∀ nonce, l.log.resolutions nonce = (l.resolved nonce).toList
  settled : ∀ nonce, (txs.filter fun tx => tx.settles nonce).length =
    if l.resolved nonce = some .settled then 1 else 0
  formed : l.escrows.length = (txs.map IncludedTx.formed).sum

theorem answered_new (withdrawalDelay maxAccounts maxEscrows : Nat) :
    (new withdrawalDelay maxAccounts maxEscrows).Answered [] :=
  ⟨by simp [new], by simp [new, ChainLog.new, ChainLog.resolutions], by simp [new], rfl⟩

/-- A change that announces nothing and forms nothing. -/
theorem Answered.same (h : l.Answered txs) (hresolved : l'.resolved = l.resolved)
    (hlog : SameResolutions l l') (hescrows : l'.escrows.length = l.escrows.length) :
    l'.Answered txs :=
  ⟨fun nonce status => hresolved ▸ h.terminal nonce status,
    fun nonce => by rw [hlog nonce, hresolved, h.announced],
    fun nonce => by rw [h.settled, hresolved], hescrows.trans h.formed⟩

theorem escrows_length_executeWithdrawal (account now : Nat) :
    (l.executeWithdrawal account now).2.escrows.length = l.escrows.length := by
  rcases executeWithdrawal_cases l account now with ⟨_, heq⟩ | ⟨_, -, -, -, heq⟩
  · rw [heq]
  · rw [heq]
    rfl

theorem escrows_length_apply (op : LedgerOp) : (op.apply l).escrows.length = l.escrows.length := by
  cases op with
  | deposit account amount =>
      rcases deposit_cases l account amount with ⟨_, heq⟩ | ⟨_, -, -, -, heq⟩
      · rw [LedgerOp.apply, heq]
      · rw [LedgerOp.apply, heq]
        rfl
  | requestWithdrawal account amount now =>
      rcases requestWithdrawal_cases l account amount now with ⟨_, heq⟩ | ⟨_, -, -, -, -, heq⟩
      · rw [LedgerOp.apply, heq]
      · rw [LedgerOp.apply, heq]
        rfl
  | executeWithdrawal account now => exact escrows_length_executeWithdrawal account now
  | executeMaturedWithdrawals now =>
      unfold LedgerOp.apply executeMaturedWithdrawals
      induction List.range l.balances.length generalizing l with
      | nil => rfl
      | cons account accounts ih => exact ih.trans (escrows_length_executeWithdrawal account now)
  | settleEscrow id contract outcome =>
      rcases settleEscrow_cases l id contract outcome with ⟨_, -, heq⟩ | ⟨e, -, -, -, heq⟩
      · rw [LedgerOp.apply, heq]
      · rw [LedgerOp.apply, heq]
        exact List.length_set

theorem escrows_length_fire (hook : List LedgerOp) :
    (l.fire hook).escrows.length = l.escrows.length := by
  induction hook generalizing l with
  | nil => rfl
  | cons op hook ih => exact ih.trans (escrows_length_apply op)

theorem Answered.fire (h : l.Answered txs) (hook : List LedgerOp) : (l.fire hook).Answered txs :=
  h.same (sameQueue_fire hook).resolved (sameResolutions_fire hook) (escrows_length_fire hook)

theorem Answered.withPending (h : l.Answered txs) (pending : List Bundle) :
    ({ l with pending } : CustodyLedger).Answered txs :=
  ⟨h.terminal, h.announced, h.settled, h.formed⟩

/-- A nonce with no answer gets its first one. -/
theorem Answered.announce {tx : IncludedTx} (h : l.Answered txs) (hnone : l.resolved nonce = none)
    (hresolved : l'.resolved = l.resolved ∨
      l'.resolved = Function.update l.resolved nonce (some .settled))
    (hlog : SameResolutions l l') (status : TxStatus) (hterminal : status.isTerminal = true)
    (hsettles : ∀ n, tx.settles n = decide (nonce = n ∧ status = .settled))
    (hformed : l'.escrows.length = l.escrows.length + tx.formed) :
    (l'.announce nonce status).Answered (txs ++ [tx]) := by
  have hupdate : (l'.announce nonce status).resolved =
      Function.update l.resolved nonce (some status) := by
    rcases hresolved with heq | heq
    · simp [CustodyLedger.announce, heq]
    · simp [CustodyLedger.announce, heq]
  refine ⟨fun n s hs => ?_, fun n => ?_, fun n => ?_, ?_⟩
  · rw [hupdate, Function.update_apply] at hs
    split at hs
    · obtain rfl := Option.some.inj hs
      exact hterminal
    · exact h.terminal n s hs
  · rw [hupdate, Function.update_apply, CustodyLedger.announce,
      ChainLog.resolutions_append_resolved, hlog, h.announced]
    by_cases hn : n = nonce
    · subst hn
      simp [hnone]
    · simp [hn, Ne.symm hn]
  · rw [hupdate, Function.update_apply, List.filter_append, List.length_append, h.settled]
    by_cases hn : n = nonce
    · subst hn
      by_cases hstatus : status = .settled <;> simp [hsettles, hnone, hstatus]
    · simp [hsettles, hn, Ne.symm hn]
  · rw [List.map_append, List.sum_append, ← h.formed]
    simpa [CustodyLedger.announce] using hformed

/-- What one inclusion hands back. -/
theorem Answered.includeNext (h : l.Answered txs) (hook : List LedgerOp) (now : Nat) :
    (l.includeNext hook now).2.Answered (txs ++ (l.includeNext hook now).1.toList) := by
  have hcases := includeNext_cases l hook now
  generalize l.includeNext hook now = result at hcases ⊢
  cases hcases with
  | idle => simpa using h
  | @bounced bundle pending existing _ _ =>
      refine ⟨h.terminal, h.announced, fun n => ?_, ?_⟩
      · rw [← h.settled n]
        simp [IncludedTx.settles]
      · rw [List.map_append, List.sum_append]
        simpa [IncludedTx.formed] using h.formed
  | @reverted bundle pending err _ hnone _ =>
      have hpopped := (h.withPending pending).fire hook
      have hfired := sameQueue_fire (l := { l with pending }) hook
      refine hpopped.announce ?_ (.inl rfl) (fun _ => rfl) .reverted rfl (fun n => ?_) rfl
      · rw [hfired.resolved]
        exact hnone
      · simp [IncludedTx.settles]
  | @settled bundle pending receipt debits _ hnone _ _ hreceipt =>
      have hpopped := (h.withPending pending).fire hook
      have hfired := sameQueue_fire (l := { l with pending }) hook
      refine hpopped.announce ?_ (.inr (resolved_commitBundle bundle debits))
        (sameResolutions_commitBundle bundle debits) .settled rfl (fun n => ?_) ?_
      · rw [hfired.resolved]
        exact hnone
      · simp [IncludedTx.settles]
      · rw [escrows_commitBundle, List.length_append]
        simp [IncludedTx.formed, hreceipt, Bundle.escrows]

theorem Answered.includeRest (h : l.Answered txs) (hook : List LedgerOp) (clock : Nat → Nat)
    (behind : Nat) :
    (includeRest hook clock behind l).2.Answered (txs ++ (includeRest hook clock behind l).1) := by
  induction behind generalizing l txs with
  | zero => simpa [CustodyLedger.includeRest] using h
  | succ behind ih =>
      have hnext := h.includeNext hook (clock behind)
      rw [CustodyLedger.includeRest]
      split
      next heq =>
        rw [heq] at hnext
        simpa using hnext
      next tx l' heq =>
        rw [heq] at hnext
        have hrest := ih hnext
        simpa using hrest

theorem Answered.perform (h : l.Answered txs) {op : CustodyOp} (hop : op.submits = true) :
    (l.perform op).Answered (txs ++ l.included op) := by
  cases op with
  | ledger op =>
      rw [included, List.append_nil]
      exact h.fire [op]
  | submit bundle =>
      rw [included, List.append_nil]
      exact h.withPending _
  | includeNext hook now => exact h.includeNext hook now
  | includeAll hook clock => exact h.includeRest hook clock _
  | dropNextSubmission =>
      rw [included, List.append_nil, CustodyLedger.perform, dropNextSubmission]
      split
      · exact h
      · exact h.withPending _
  | precheck bundle now =>
      rw [included, List.append_nil]
      exact h
  | settle hook bundle now => cases hop

theorem Answered.run {ops : List CustodyOp} (h : l.Answered txs)
    (hops : ∀ op ∈ ops, op.submits = true) : (l.run ops).Answered (txs ++ l.receipts ops) := by
  induction ops generalizing l txs with
  | nil => simpa [receipts] using h
  | cons op ops ih =>
      have hstep := h.perform (hops op (by simp))
      have hrest := ih hstep fun op' hop' => hops op' (by simp [hop'])
      rw [List.append_assoc] at hrest
      exact hrest

-- ============================================================================
-- Answers are final
-- ============================================================================

/-- An answer that stands still stands. -/
def Final (l l' : CustodyLedger) : Prop :=
  ∀ nonce status, l.resolved nonce = some status → l'.resolved nonce = some status

theorem final_of_resolved (h : l'.resolved = l.resolved) : Final l l' :=
  fun _ _ hs => h ▸ hs

theorem Final.trans {l'' : CustodyLedger} (h : Final l l') (h' : Final l' l'') : Final l l'' :=
  fun nonce status hs => h' nonce status (h nonce status hs)

theorem resolved_announce_of_ne {n : Nonce} {status : TxStatus} (h : n ≠ nonce) :
    (l.announce nonce status).resolved n = l.resolved n :=
  Function.update_of_ne h _ _

theorem final_includeNext (l : CustodyLedger) (hook : List LedgerOp) (now : Nat) :
    Final l (l.includeNext hook now).2 := by
  have hcases := includeNext_cases l hook now
  generalize l.includeNext hook now = result at hcases ⊢
  cases hcases with
  | idle => exact fun _ _ hs => hs
  | bounced => exact fun _ _ hs => hs
  | @reverted bundle pending err _ hnone _ =>
      intro nonce status hs
      have hne : nonce ≠ bundle.nonce := fun heq => by rw [heq, hnone] at hs; cases hs
      refine (resolved_announce_of_ne hne).trans ?_
      rw [(sameQueue_fire hook).resolved]
      exact hs
  | @settled bundle pending receipt debits _ hnone _ _ _ =>
      intro nonce status hs
      have hne : nonce ≠ bundle.nonce := fun heq => by rw [heq, hnone] at hs; cases hs
      refine (resolved_announce_of_ne hne).trans ?_
      rw [resolved_commitBundle, Function.update_of_ne hne, (sameQueue_fire hook).resolved]
      exact hs

theorem final_perform {op : CustodyOp} (hop : op.submits = true) : Final l (l.perform op) := by
  cases op with
  | ledger op => exact final_of_resolved (sameQueue_fire [op]).resolved
  | submit bundle => exact final_of_resolved rfl
  | includeNext hook now => exact final_includeNext l hook now
  | includeAll hook clock =>
      refine includeRest_induct (P := Final l) (fun l' now hl' => ?_) _ (final_of_resolved rfl)
      exact hl'.trans (final_includeNext l' hook now)
  | dropNextSubmission =>
      rw [perform, dropNextSubmission]
      split
      · exact final_of_resolved rfl
      · exact final_of_resolved rfl
  | precheck bundle now => exact final_of_resolved rfl
  | settle hook bundle now => cases hop

theorem final_run {ops : List CustodyOp} (hops : ∀ op ∈ ops, op.submits = true) :
    Final l (l.run ops) := by
  induction ops generalizing l with
  | nil => exact final_of_resolved rfl
  | cons op ops ih =>
      exact (final_perform (hops op (by simp))).trans (ih fun op' hop' => hops op' (by simp [hop']))

-- ============================================================================
-- Exactly once
-- ============================================================================

/-- An answer reported as terminal is the one on record. -/
theorem resolved_of_terminal (hterminal : (l.status nonce).isTerminal = true) :
    l.resolved nonce = some (l.status nonce) := by
  unfold CustodyLedger.status at hterminal ⊢
  split at hterminal
  next status hs => rw [hs]
  next hnone =>
    split at hterminal <;> cases hterminal

theorem Answered.not_terminal (h : l.Answered txs)
    (hterminal : (l.status nonce).isTerminal = false) : l.resolved nonce = none := by
  cases hs : l.resolved nonce with
  | none => rfl
  | some status =>
      rw [status_of_resolved hs, h.terminal nonce status hs] at hterminal
      cases hterminal

/-- A submission that did not settle moves nothing but what its hook moves. -/
theorem includeNext_error {tx : IncludedTx} {err : SettleError} {hook : List LedgerOp} {now : Nat}
    (htx : (l.includeNext hook now).1 = some tx) (herr : tx.outcome = .error err) :
    ∃ l₁, (l₁ = l ∨ l₁ = ({ l with pending := l.pending.tail } : CustodyLedger).fire hook) ∧
      (l.includeNext hook now).2.balances = l₁.balances ∧
      (l.includeNext hook now).2.escrows = l₁.escrows := by
  have hcases := includeNext_cases l hook now
  generalize l.includeNext hook now = result at hcases htx ⊢
  cases hcases with
  | idle => cases htx
  | bounced => exact ⟨l, .inl rfl, rfl, rfl⟩
  | @reverted bundle pending _ hpending _ _ =>
      exact ⟨({ l with pending } : CustodyLedger).fire hook, .inr (by rw [hpending]; rfl), rfl, rfl⟩
  | settled =>
      obtain rfl := Option.some.inj htx
      cases herr

/-- In every run that includes only what was submitted: a terminal answer is final; a nonce
    settles once if its answer is Settled and never otherwise, and only settlements form
    escrows or debit; a resubmission gets the answer that stands and changes nothing but the
    queue; and the log announces a nonce once, with its answer. -/
theorem settles_exactly_once (withdrawalDelay maxAccounts maxEscrows : Nat) (ops : List CustodyOp)
    (hops : ∀ op ∈ ops, op.submits = true) :
    let l := (new withdrawalDelay maxAccounts maxEscrows).run ops
    let txs := (new withdrawalDelay maxAccounts maxEscrows).receipts ops
    (∀ nonce, (l.status nonce).isTerminal = true → ∀ ops', (∀ op ∈ ops', op.submits = true) →
        (l.run ops').status nonce = l.status nonce) ∧
      (∀ nonce, (txs.filter fun tx => tx.settles nonce).length =
        if l.status nonce = .settled then 1 else 0) ∧
      l.escrows.length = (txs.map IncludedTx.formed).sum ∧
      (∀ hook now tx err, (l.includeNext hook now).1 = some tx → tx.outcome = .error err →
        ∃ l₁, (l₁ = l ∨ l₁ = ({ l with pending := l.pending.tail } : CustodyLedger).fire hook) ∧
          (l.includeNext hook now).2.balances = l₁.balances ∧
          (l.includeNext hook now).2.escrows = l₁.escrows) ∧
      (∀ bundle pending, l.pending = bundle :: pending →
        (l.status bundle.nonce).isTerminal = true → ∀ hook now, l.includeNext hook now =
          (some ⟨bundle.nonce, .error .nonceReused, l.status bundle.nonce⟩, { l with pending })) ∧
      ∀ nonce, l.log.resolutions nonce =
        if (l.status nonce).isTerminal then [l.status nonce] else [] := by
  intro l txs
  have h : l.Answered txs :=
    (answered_new withdrawalDelay maxAccounts maxEscrows).run hops
  refine ⟨fun nonce hterminal ops' hops' => ?_, fun nonce => ?_, h.formed,
    fun hook now tx err => includeNext_error, fun bundle pending hpending hterminal hook now => ?_,
    fun nonce => ?_⟩
  · exact status_of_resolved (final_run hops' nonce _ (resolved_of_terminal hterminal))
  · rw [h.settled nonce]
    have hiff : l.resolved nonce = some .settled ↔ l.status nonce = .settled := by
      constructor
      · exact status_of_resolved
      · intro hstatus
        have hterminal : (l.status nonce).isTerminal = true := by rw [hstatus]; rfl
        rw [resolved_of_terminal hterminal, hstatus]
    simp only [hiff]
  · have hresolved := resolved_of_terminal hterminal
    unfold includeNext
    simp only [hpending, hresolved]
  · rw [h.announced nonce]
    split
    next hterminal =>
      rw [resolved_of_terminal hterminal]
      rfl
    next hterminal =>
      rw [h.not_terminal (by simpa using hterminal)]
      rfl

/-- A nonce submitted twice, the second time with other legs, and a third time. -/
theorem settles_exactly_once_resubmitted :
    let n : Nonce := ⟨3, 7⟩
    let leg : BundleLeg := ⟨0, .yes, 2, 1, 400_000, 10⟩
    let ops : List CustodyOp := [.ledger (.deposit 0 2_000_000), .ledger (.deposit 1 2_000_000),
      .submit ⟨n, 0, [leg]⟩, .submit ⟨n, 0, [leg, leg]⟩, .includeAll [] fun _ => 5,
      .submit ⟨n, 0, [leg]⟩]
    let l := (new 5 2 4).run ops
    l.escrows.length = 1 ∧ l.log.resolutions n = [.settled] ∧
      ∀ hook now, l.includeNext hook now =
        (some ⟨n, .error .nonceReused, .settled⟩, { l with pending := [] }) := by
  intro n leg ops l
  obtain ⟨-, -, -, -, hresubmitted, hlog⟩ := settles_exactly_once 5 2 4 ops (by simp [ops, CustodyOp.submits])
  have hstatus : l.status n = .settled := by decide +kernel
  refine ⟨by decide +kernel, ?_, fun hook now => ?_⟩
  · rw [hlog n, hstatus]
    rfl
  · have hanswer := hresubmitted ⟨n, 0, [leg]⟩ [] (by decide +kernel) (by decide +kernel) hook now
    rw [hanswer, hstatus]

end CustodyLedger

end RfqSettlement
