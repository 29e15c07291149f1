/-
  RfqSettlement.Runtime.Mirroring

  The engine's mirror of custody's balances, through the log and the indexer.

  A `Mirroring` holds the engine, custody and the indexer.  Beside each entry of the
  log it keeps custody as the operation that logged the entry left it, and it keeps
  what the indexer has delivered.  The mirrored balance of an account is the
  availability in the state beside the last balance delivered for it, and with the
  cursor at the end of the log the availability now (`mirror_delayed`).  Hashes last as
  long as memory does: each one minted stands on an entry of its own.
-/

import RfqSettlement.Runtime.Owing

namespace RfqSettlement

/-- The three systems; `written` stands beside the log's entries, and `read` is what was
    delivered. -/
structure Mirroring where
  engine : Engine
  custody : CustodyLedger
  indexer : Indexer
  written : List CustodyLedger
  read : List (ChainEvent × CustodyLedger)

/-- What happens next.  A `drain` hands the engine what it delivers, the `i`-th command at
    `clock i`; an indexer that is stalled is not drained. -/
inductive MirrorOp where
  | deposit (account amount : Nat)
  | requestWithdrawal (account amount now : Nat)
  | executeWithdrawal (account now : Nat)
  | submit (bundle : Bundle)
  | includeNext (now : Nat)
  | dropNextSubmission
  | settleEscrow (id contract : Nat) (outcome : Outcome)
  | advanceBlock
  | drain (clock : Nat → Nat) (capacity : Nat)
  | rewind
  | command (command : Command) (hgateway : command.isGateway = true) (now capacity : Nat)

/-- Whether an entry is a balance of `account`. -/
def ChainEvent.concerns (account : Nat) (entry : ChainEvent) : Bool :=
  match entry.payload with
  | .balanceChanged account' _ => decide (account' = account)
  | _ => false

-- ============================================================================
-- What custody writes
-- ============================================================================

namespace CustodyLedger

variable {l l' : CustodyLedger} {a account amount now id contract : Nat} {payloads : List ChainPayload}
  {outcome : Outcome}

/-- `l'` logged `payloads`: balances as they are now, and those of every account it changed. -/
structure Writes (l l' : CustodyLedger) (payloads : List ChainPayload) : Prop where
  log : l'.log = payloads.foldl ChainLog.append l.log
  values : ∀ a v, .balanceChanged a v ∈ payloads → v = l'.available a
  changed : ∀ a, l'.account a ≠ l.account a → .balanceChanged a (l'.available a) ∈ payloads

theorem Posts.writes (h : Posts l l' payloads) : Writes l l' payloads := ⟨h.log, h.values, h.changed⟩

theorem writes_quiet (hbalances : l'.balances = l.balances) (hlog : l'.log = l.log) :
    Writes l l' [] :=
  ⟨hlog, by simp, fun _ hne => absurd (account_congr hbalances) hne⟩

/-- An answer is announced after the balances. -/
theorem Writes.announce (h : Writes l l' payloads) (nonce : Nonce) (status : TxStatus) :
    Writes l (l'.announce nonce status) (payloads ++ [.settlementResolved nonce status]) where
  log := by
    rw [List.foldl_append, ← h.log]
    rfl
  values a v hv := by
    have hmem : .balanceChanged a v ∈ payloads := by simpa using hv
    exact h.values a v hmem
  changed a ha := List.mem_append_left _ (h.changed a ha)

/-- `l'` logged what takes every mirror from the availability in `l` to its own. -/
def Informs (l l' : CustodyLedger) : Prop :=
  ∃ payloads : List ChainPayload, l'.log = payloads.foldl ChainLog.append l.log ∧
    ∀ a, Harness.lastCredit a (payloads.map ChainPayload.command) (l.available a) = l'.available a

theorem Writes.informs (h : Writes l l' payloads) : Informs l l' := by
  refine ⟨payloads, h.log, fun a => ?_⟩
  rcases Harness.lastCredit_cases a (payloads.map ChainPayload.command) (l.available a) with
    hmem | ⟨hnone, heq⟩
  · obtain ⟨payload, hpayload, hcommand⟩ := List.mem_map.mp hmem
    have hposted : payload = .balanceChanged a (Harness.lastCredit a
        (payloads.map ChainPayload.command) (l.available a)) := by
      cases payload with
      | balanceChanged a' v =>
          obtain ⟨rfl, rfl⟩ := Command.creditAccount.inj hcommand
          rfl
      | _ => cases hcommand
    exact h.values a _ (hposted ▸ hpayload)
  · rw [heq]
    by_contra hne
    have hchanged : l'.account a ≠ l.account a := by
      intro hsame
      rw [CustodyLedger.available, CustodyLedger.available, hsame] at hne
      exact hne rfl
    exact hnone _ (List.mem_map.mpr ⟨_, h.changed a hchanged, rfl⟩)

theorem Informs.refl (l : CustodyLedger) : Informs l l := ⟨[], rfl, fun _ => rfl⟩

theorem Informs.trans {l'' : CustodyLedger} (h : Informs l l') (h' : Informs l' l'') : Informs l l'' := by
  obtain ⟨payloads, hlog, hlast⟩ := h
  obtain ⟨payloads', hlog', hlast'⟩ := h'
  refine ⟨payloads ++ payloads', by rw [hlog', hlog, List.foldl_append], fun a => ?_⟩
  rw [List.map_append, Harness.lastCredit_append, hlast, hlast']

/-- An entry that is no balance. -/
theorem informs_append {payload : ChainPayload} (hbalances : l'.balances = l.balances)
    (hlog : l'.log = l.log.append payload) (hother : ∀ a v, payload ≠ .balanceChanged a v) :
    Informs l l' := by
  refine ⟨[payload], hlog, fun a => ?_⟩
  rw [available_congr hbalances]
  cases payload with
  | balanceChanged a' v => exact absurd rfl (hother a' v)
  | _ => rfl

/-- Hashes only go up. -/
theorem Informs.nextTx_le {indexer : Indexer} (h : Informs l l') (htracks : indexer.Tracks l.log) :
    l.log.nextTx ≤ l'.log.nextTx := by
  obtain ⟨payloads, hlog, -⟩ := h
  refine ChainLog.Extends.nextTx_le (Q := fun _ => true) ?_ htracks.hashes
  exact ⟨payloads, by simp, hlog⟩

/-- What waits ends with the availability, as long as hashes last. -/
theorem Informs.current {indexer : Indexer} {free : Nat} (h : Informs l l')
    (htracks : indexer.Tracks l.log) (hnext : l'.log.nextTx < u64Max)
    (hcurrent : l.log.nextTx < u64Max →
      Harness.lastCredit a (indexer.backlog l.log) free = l.available a) :
    Harness.lastCredit a (indexer.backlog l'.log) free = l'.available a := by
  have hlt := Nat.lt_of_le_of_lt (h.nextTx_le htracks) hnext
  obtain ⟨payloads, hlog, hlast⟩ := h
  obtain ⟨more, -, hbacklog, hall⟩ := Indexer.backlog_appends htracks payloads
  rw [← hlog] at hbacklog hall
  obtain rfl := hall hnext
  rw [hbacklog, Harness.lastCredit_append, hcurrent hlt, hlast]

theorem informs_apply (op : LedgerOp) : Informs l (op.apply l) := by
  have hexecute : ∀ l account now, Informs l (CustodyLedger.executeWithdrawal l account now).2 := by
    intro l account now
    obtain ⟨_, hposts⟩ : ∃ payloads, Posts l (l.executeWithdrawal account now).2 payloads :=
      posts_executeWithdrawal
    exact hposts.writes.informs
  cases op with
  | deposit account amount =>
      obtain ⟨_, hposts⟩ : ∃ payloads, Posts l (l.deposit account amount).2 payloads := posts_deposit
      exact hposts.writes.informs
  | requestWithdrawal account amount now =>
      obtain ⟨_, hposts⟩ : ∃ payloads, Posts l (l.requestWithdrawal account amount now).2 payloads :=
        posts_requestWithdrawal
      exact hposts.writes.informs
  | executeWithdrawal account now => exact hexecute l account now
  | executeMaturedWithdrawals now =>
      unfold LedgerOp.apply executeMaturedWithdrawals
      induction List.range l.balances.length generalizing l with
      | nil => exact .refl l
      | cons account accounts ih => exact (hexecute l account now).trans ih
  | settleEscrow id contract outcome =>
      obtain ⟨_, hposts⟩ : ∃ payloads, Posts l (l.settleEscrow id contract outcome).2 payloads :=
        posts_settleEscrow
      exact hposts.writes.informs

theorem informs_fire (hook : List LedgerOp) : Informs l (l.fire hook) := by
  induction hook generalizing l with
  | nil => exact .refl l
  | cons op hook ih => exact (informs_apply op).trans ih

theorem informs_commitBundle {bundle : Bundle} {debits : Debits} :
    Informs l (l.commitBundle bundle debits) :=
  posts_commitBundle.writes.informs

theorem informs_settle {bundle : Bundle} (hook : List LedgerOp) : Informs l (l.settle hook bundle now).2 := by
  rcases settle_cases l hook bundle now with ⟨err, heq⟩ | ⟨receipt, debits, -, -, -, heq⟩
  · rw [heq]
    exact informs_fire hook
  · rw [heq]
    exact (informs_fire hook).trans informs_commitBundle

theorem informs_includeNext (hook : List LedgerOp) : Informs l (l.includeNext hook now).2 := by
  have hannounce : ∀ (m : CustodyLedger) (nonce : Nonce) (status : TxStatus),
      Informs m (m.announce nonce status) := fun _ _ _ => informs_append rfl rfl (by simp)
  have hinclusion := includeNext_cases l hook now
  generalize l.includeNext hook now = result at hinclusion
  cases hinclusion with
  | idle => exact .refl l
  | bounced => exact (writes_quiet rfl rfl).informs
  | @reverted bundle pending =>
      have hpopped : Informs l { l with pending } := (writes_quiet rfl rfl).informs
      exact (hpopped.trans (informs_fire hook)).trans (hannounce _ _ _)
  | @settled bundle pending receipt debits =>
      have hpopped : Informs l { l with pending } := (writes_quiet rfl rfl).informs
      exact ((hpopped.trans (informs_fire hook)).trans informs_commitBundle).trans (hannounce _ _ _)

/-- Any operation of custody, whatever hooks fire on the way. -/
theorem informs_perform (op : CustodyOp) : Informs l (l.perform op) := by
  cases op with
  | ledger op => exact informs_apply op
  | submit bundle => exact (writes_quiet rfl rfl).informs
  | includeNext hook now => exact informs_includeNext hook
  | includeAll hook clock =>
      exact includeRest_induct (P := Informs l) (fun _ _ h => h.trans (informs_includeNext hook)) _ (.refl l)
  | dropNextSubmission =>
      have hdrop : Informs l l.dropNextSubmission.2 := by
        unfold dropNextSubmission
        split <;> exact (writes_quiet rfl rfl).informs
      exact hdrop
  | precheck => exact .refl l
  | settle hook bundle now => exact informs_settle hook

theorem writes_includeNext (l : CustodyLedger) (now : Nat) :
    ∃ payloads, Writes l (l.includeNext [] now).2 payloads := by
  have hinclusion := includeNext_cases l [] now
  generalize l.includeNext [] now = result at hinclusion
  cases hinclusion with
  | idle => exact ⟨[], writes_quiet rfl rfl⟩
  | bounced => exact ⟨[], writes_quiet rfl rfl⟩
  | @reverted bundle pending =>
      have hquiet : Writes l { l with pending } [] := writes_quiet rfl rfl
      exact ⟨_, hquiet.announce _ _⟩
  | @settled bundle pending receipt debits =>
      have hposts : Posts { l with pending }
        (({ l with pending } : CustodyLedger).commitBundle bundle debits) _ := posts_commitBundle
      have hwrites : Writes l (({ l with pending } : CustodyLedger).commitBundle bundle debits) _ :=
        ⟨hposts.log, hposts.values, hposts.changed⟩
      exact ⟨_, hwrites.announce _ _⟩

end CustodyLedger

namespace ChainLog

variable {log : ChainLog}

/-- What a transaction adds to the entries. -/
theorem entries_appends (payloads : List ChainPayload) (log : ChainLog) :
    ∃ added : List ChainEvent, (payloads.foldl append log).entries = log.entries ++ added ∧
      added.map ChainEvent.payload = payloads := by
  induction payloads generalizing log with
  | nil => exact ⟨[], by simp, rfl⟩
  | cons payload payloads ih =>
      obtain ⟨added, hentries, hpayloads⟩ := ih (log.append payload)
      refine ⟨⟨log.head, log.nextTx, 0, payload⟩ :: added, ?_, by simp [hpayloads]⟩
      rw [List.foldl_cons, hentries, append, List.append_assoc]
      rfl

/-- The entries are a `Vec`, which allocates at most `isize::MAX` bytes. -/
def Allocated (log : ChainLog) : Prop := log.entries.length ≤ 2 ^ 63 - 1

instance (log : ChainLog) : Decidable log.Allocated :=
  inferInstanceAs (Decidable (log.entries.length ≤ 2 ^ 63 - 1))

/-- Every hash minted stands on an entry. -/
theorem nextTx_le_appends (payloads : List ChainPayload) (h : log.nextTx ≤ log.entries.length) :
    (payloads.foldl append log).nextTx ≤ (payloads.foldl append log).entries.length := by
  induction payloads generalizing log with
  | nil => exact h
  | cons payload payloads ih =>
      have happend : (log.append payload).nextTx ≤ (log.append payload).entries.length := by
        show saturatingAdd log.nextTx 1 ≤ (log.entries ++ [_]).length
        rw [List.length_append, List.length_singleton, saturatingAdd]
        omega
      exact ih happend

/-- So a log that fits in memory has hashes left. -/
theorem Allocated.nextTx_lt (hallocated : log.Allocated) (h : log.nextTx ≤ log.entries.length) :
    log.nextTx < u64Max := by
  unfold Allocated at hallocated
  simp only [u64Max]
  omega

end ChainLog

namespace Engine

variable {e : Engine} {a : Nat} {t t' : Totals}

theorem Sane.totals_step (h : e.Sane) (input : Input) :
    ((e.step input).market.totals a).isSome = (e.market.totals a).isSome := by
  obtain ⟨_, -, hadv⟩ := h.apply input.command input.now (.withCapacity input.capacity)
  exact hadv.steps.totals_isSome

/-- A mirror update is exact. -/
theorem Sane.free_creditAccount {input : Input} {free : Nat} (h : e.Sane)
    (hcommand : input.command = .creditAccount a free)
    (ht' : (e.step input).market.totals a = some t') : t'.free = free := by
  have hn := h.normalised input.command input.now
  have hstep : (e.step input).market = ((e.normaliseAll (e.touchedAccounts input.command)
      input.now).perform (.creditAccount a free) input.now (.withCapacity input.capacity)).2.1.market := by
    rw [Engine.step, Engine.answer, Engine.apply, hcommand]
  have hknown : ((e.normaliseAll (e.touchedAccounts input.command) input.now).market.totals a).isSome =
      true := by
    rw [(hn.steps .calm).totals_isSome, ← h.totals_step input, ht']
    rfl
  obtain ⟨m, hm⟩ : ∃ m, (e.normaliseAll (e.touchedAccounts input.command) input.now).ledger.account a =
      some m := by
    rw [← Option.isSome_iff_exists]
    have hmap : ((e.normaliseAll (e.touchedAccounts input.command) input.now).market.totals a).isSome =
        ((e.normaliseAll (e.touchedAccounts input.command) input.now).ledger.account a).isSome :=
      Option.isSome_map
    exact hmap ▸ hknown
  rw [hstep, market_creditAccount hm] at ht'
  simp only [Market.modifyTotals, Function.update_self, Option.map_eq_some_iff] at ht'
  obtain ⟨t₀, -, rfl⟩ := ht'
  rfl

/-- The mirror moves by credits only, whatever else a command does. -/
theorem Sane.free_step (h : e.Sane) (input : Input) (ht : e.market.totals a = some t)
    (ht' : (e.step input).market.totals a = some t') :
    t'.free = Harness.lastCredit a [input.command] t.free := by
  by_cases hcredit : ∃ free, input.command = .creditAccount a free
  · obtain ⟨free, hcommand⟩ := hcredit
    rw [hcommand, Harness.lastCredit, if_pos rfl, Harness.lastCredit]
    exact h.free_creditAccount hcommand ht'
  · have hcredit : ∀ free, input.command ≠ .creditAccount a free := fun free heq => hcredit ⟨free, heq⟩
    rw [Harness.lastCredit_of_not_credit hcredit]
    obtain ⟨scope, hfor, hadv⟩ := h.apply input.command input.now (.withCapacity input.capacity)
    obtain ⟨t'', ht'', hmove⟩ := hadv.steps.totals ht
    obtain rfl : t' = t'' := Option.some.inj (ht'.symm.trans ht'')
    rcases hmove.free with heq | hscope
    · exact heq
    · subst hscope
      generalize input.command = command at hfor hcredit
      cases command with
      | creditAccount account free =>
          obtain ⟨rfl, -⟩ := Scope.crediting.inj hfor
          exact absurd rfl (hcredit free)
      | submitQuote => rcases hfor with hfor | ⟨_, _, hfor, -⟩ <;> cases hfor
      | pollSettlement => rcases hfor with hfor | ⟨_, hfor, -⟩ <;> cases hfor
      | _ => cases hfor

theorem Sane.sane_run (h : e.Sane) (inputs : List Input) : (e.run inputs).Sane := by
  induction inputs generalizing e with
  | nil => exact h
  | cons input inputs ih => exact ih (h.sane_step input)

theorem Sane.totals_run (h : e.Sane) (inputs : List Input) :
    ((e.run inputs).market.totals a).isSome = (e.market.totals a).isSome := by
  induction inputs generalizing e with
  | nil => rfl
  | cons input inputs ih => exact (ih (h.sane_step input)).trans (h.totals_step input)

theorem Sane.free_run (h : e.Sane) (inputs : List Input) (ht : e.market.totals a = some t)
    (ht' : (e.run inputs).market.totals a = some t') :
    t'.free = Harness.lastCredit a (inputs.map Input.command) t.free := by
  induction inputs generalizing e t with
  | nil =>
      obtain rfl : t = t' := Option.some.inj (ht.symm.trans ht')
      rfl
  | cons input inputs ih =>
      obtain ⟨t₁, ht₁⟩ : ∃ t₁, (e.step input).market.totals a = some t₁ := by
        rw [← Option.isSome_iff_exists, h.totals_step, ht]
        rfl
      rw [ih (h.sane_step input) ht₁ ht', h.free_step input ht ht₁, ← Harness.lastCredit_append]
      rfl

end Engine

namespace Mirroring

variable {config : Config} {confirmations maxAccounts maxEscrows a : Nat} {x x' : Mirroring}
  {op : MirrorOp} {l : CustodyLedger} {payloads : List ChainPayload}

-- ============================================================================
-- Runs
-- ============================================================================

/-- An engine, a custody and an indexer that have done nothing yet. -/
def start (engine : Engine) (confirmations maxAccounts maxEscrows : Nat) : Mirroring where
  engine
  custody := .new engine.config.withdrawalDelay maxAccounts maxEscrows
  indexer := .new confirmations
  written := []
  read := []

/-- Custody after an operation, beside each entry the operation logged. -/
def wrote (x : Mirroring) (l : CustodyLedger) : Mirroring :=
  { x with
    custody := l
    written := x.written ++ List.replicate (l.log.entries.length - x.custody.log.entries.length) l }

/-- The log, with what stands beside its entries. -/
def history (x : Mirroring) : List (ChainEvent × CustodyLedger) := x.custody.log.entries.zip x.written

/-- What a drain delivers: `Indexer.pass` over the history. -/
def delivers (x : Mirroring) : List (ChainEvent × CustodyLedger) :=
  match x.indexer.horizon x.custody.log.head with
  | none => []
  | some horizon => Feed.walk (ChainEvent.key ∘ Prod.fst) (Indexer.deep horizon ∘ Prod.fst)
      x.indexer.delivered (x.history.drop x.indexer.cursor)

/-- Drain the indexer and hand the engine what it delivers. -/
def drain (x : Mirroring) (clock : Nat → Nat) (capacity : Nat) : Mirroring :=
  { x with
    engine := x.engine.run ((x.indexer.drain x.custody.log).1.zipIdx.map fun c =>
      ⟨c.1, clock c.2, capacity⟩)
    indexer := (x.indexer.drain x.custody.log).2
    read := x.read ++ x.delivers }

def perform (x : Mirroring) : MirrorOp → Mirroring
  | .deposit account amount => x.wrote (x.custody.deposit account amount).2
  | .requestWithdrawal account amount now =>
    x.wrote (x.custody.requestWithdrawal account amount now).2
  | .executeWithdrawal account now => x.wrote (x.custody.executeWithdrawal account now).2
  | .submit bundle => x.wrote (x.custody.submit bundle).2
  | .includeNext now => x.wrote (x.custody.includeNext [] now).2
  | .dropNextSubmission => x.wrote x.custody.dropNextSubmission.2
  | .settleEscrow id contract outcome => x.wrote (x.custody.settleEscrow id contract outcome).2
  | .advanceBlock => { x with custody := { x.custody with log := x.custody.log.advanceBlock } }
  | .drain clock capacity => x.drain clock capacity
  | .rewind => { x with indexer := x.indexer.rewind }
  | .command command _ now capacity => { x with engine := x.engine.step ⟨command, now, capacity⟩ }

def run (x : Mirroring) (ops : List MirrorOp) : Mirroring := ops.foldl perform x

@[simp] theorem run_nil (x : Mirroring) : x.run [] = x := rfl

@[simp] theorem run_cons (x : Mirroring) (op : MirrorOp) (ops : List MirrorOp) :
    x.run (op :: ops) = (x.perform op).run ops := rfl

theorem run_append (x : Mirroring) (ops ops' : List MirrorOp) :
    x.run (ops ++ ops') = (x.run ops).run ops' :=
  List.foldl_append

/-- Reached by any operations in any order. -/
def Reached (config : Config) (confirmations maxAccounts maxEscrows : Nat) (x : Mirroring) : Prop :=
  ∃ engine ops, Engine.new config = .ok engine ∧
    x = (start engine confirmations maxAccounts maxEscrows).run ops

/-- The availability custody had for `account` right after the operation that logged the
    last balance delivered for it, or zero. -/
def image (x : Mirroring) (account : Nat) : Nat :=
  match (x.read.filter fun p => p.1.concerns account).getLast? with
  | some p => p.2.available account
  | none => 0

-- ============================================================================
-- The mirror
-- ============================================================================

/-- Beside a balance stands a custody with that availability. -/
def Stamped (p : ChainEvent × CustodyLedger) : Prop :=
  ∀ a v, p.1.payload = .balanceChanged a v → v = p.2.available a

/-- What holds throughout: the mirror is what was delivered, and with what is waiting it
    is custody's availability. -/
structure Mirrors (x : Mirroring) : Prop where
  sane : x.engine.Sane
  aligned : x.written.length = x.custody.log.entries.length
  history : ∀ p ∈ x.history, Stamped p
  read : ∀ p ∈ x.read, Stamped p
  free : ∀ a t, x.engine.market.totals a = some t →
    t.free = Harness.lastCredit a (x.read.map (Indexer.translate ∘ Prod.fst)) 0
  tracks : x.indexer.Tracks x.custody.log
  minted : x.custody.log.nextTx ≤ x.custody.log.entries.length
  current : x.custody.log.nextTx < u64Max → ∀ a t, x.engine.market.totals a = some t →
    Harness.lastCredit a (x.indexer.backlog x.custody.log) t.free = x.custody.available a

/-- Delivered last, a balance is the mirror. -/
theorem lastCredit_read {ps : List (ChainEvent × CustodyLedger)} (hstamped : ∀ p ∈ ps, Stamped p)
    (free : Nat) :
    Harness.lastCredit a (ps.map (Indexer.translate ∘ Prod.fst)) free =
      match (ps.filter fun p => p.1.concerns a).getLast? with
      | some p => p.2.available a
      | none => free := by
  induction ps generalizing free with
  | nil => rfl
  | cons p ps ih =>
      have hrest := ih fun q hq => hstamped q (List.mem_cons_of_mem _ hq)
      by_cases hbalance : ∃ v, p.1.payload = .balanceChanged a v
      · obtain ⟨v, hpayload⟩ := hbalance
        have hconcerns : p.1.concerns a = true := by simp [ChainEvent.concerns, hpayload]
        have htranslate : Indexer.translate p.1 = .creditAccount a v := by
          simp [Indexer.translate, hpayload]
        rw [List.map_cons, Function.comp_apply, htranslate, Harness.lastCredit, if_pos rfl, hrest,
          List.filter_cons_of_pos (by exact hconcerns), List.getLast?_cons,
          hstamped p List.mem_cons_self a v hpayload]
        cases (ps.filter fun p => p.1.concerns a).getLast? <;> rfl
      · have hother : p.1.concerns a = false := by
          unfold ChainEvent.concerns
          split
          next a' v heq =>
            rw [decide_eq_false_iff_not]
            rintro rfl
            exact hbalance ⟨v, heq⟩
          next => rfl
        have htranslate : ∀ free', Indexer.translate p.1 ≠ .creditAccount a free' := by
          intro free' heq
          unfold Indexer.translate at heq
          split at heq
          next a' v hpayload =>
            obtain ⟨rfl, -⟩ := Command.creditAccount.inj heq
            exact hbalance ⟨v, hpayload⟩
          all_goals cases heq
        rw [List.map_cons, Function.comp_apply, ← List.singleton_append, Harness.lastCredit_append,
          Harness.lastCredit_of_not_credit htranslate, hrest, List.filter_cons_of_neg (by simp [hother])]

theorem Mirrors.image (h : x.Mirrors) {t : Totals} (ht : x.engine.market.totals a = some t) :
    t.free = x.image a :=
  (h.free a t ht).trans (lastCredit_read h.read 0)

theorem mirrors_start {engine : Engine} (hnew : Engine.new config = .ok engine) :
    (start engine confirmations maxAccounts maxEscrows).Mirrors := by
  have hsane := Engine.sane_new hnew
  obtain ⟨-, rfl⟩ := Engine.new_eq_ok hnew
  have havailable : ∀ a, (CustodyLedger.new config.withdrawalDelay maxAccounts maxEscrows).available a = 0 := by
    intro a
    rw [CustodyLedger.available, CustodyLedger.account, CustodyLedger.new, List.getElem?_replicate]
    split <;> rfl
  refine ⟨hsane, rfl, fun p hp => ?_, fun p hp => ?_, fun a t ht => ?_, Indexer.tracks_new _,
    Nat.le_refl _, fun _ a t ht => ?_⟩
  · cases hp
  · cases hp
  · rw [Engine.totals_new ht]
    rfl
  · rw [Engine.totals_new ht]
    exact (havailable a).symm

theorem zip_beside (entries : List ChainEvent) (l : CustodyLedger) :
    entries.zip (List.replicate entries.length l) = entries.map fun entry => (entry, l) := by
  induction entries with
  | nil => rfl
  | cons entry entries ih =>
      rw [List.length_cons, List.replicate_succ, List.zip_cons_cons, ih, List.map_cons]

/-- The log grows by what custody writes, and each entry gets what it left. -/
theorem Mirrors.wrote (h : x.Mirrors) (hw : CustodyLedger.Writes x.custody l payloads) :
    (x.wrote l).Mirrors := by
  obtain ⟨added, hentries, hpayloads⟩ := ChainLog.entries_appends payloads x.custody.log
  rw [← hw.log] at hentries
  have hwritten : (x.wrote l).written = x.written ++ List.replicate added.length l := by
    show x.written ++ List.replicate _ l = _
    rw [hentries, List.length_append, Nat.add_sub_cancel_left]
  have hhistory : (x.wrote l).history = x.history ++ added.map fun entry => (entry, l) := by
    show l.log.entries.zip (x.wrote l).written = _
    rw [hentries, hwritten, List.zip_append h.aligned.symm, zip_beside]
    rfl
  refine ⟨h.sane, ?_, fun p hp => ?_, h.read, h.free, ?_, ?_, fun hnext a t ht => ?_⟩
  · show (x.wrote l).written.length = l.log.entries.length
    rw [hwritten, hentries, List.length_append, List.length_append, List.length_replicate, h.aligned]
  · rw [hhistory] at hp
    rcases List.mem_append.mp hp with hp | hp
    · exact h.history p hp
    · obtain ⟨entry, hentry, rfl⟩ := List.mem_map.mp hp
      intro a v hpayload
      refine hw.values a v (hpayloads ▸ ?_)
      exact List.mem_map.mpr ⟨entry, hentry, hpayload⟩
  · show x.indexer.Tracks l.log
    rw [hw.log]
    exact h.tracks.appends payloads
  · show l.log.nextTx ≤ l.log.entries.length
    rw [hw.log]
    exact ChainLog.nextTx_le_appends payloads h.minted
  · exact hw.informs.current h.tracks hnext fun hbefore => h.current hbefore a t ht

/-- What a drain delivers is what it hands the engine. -/
theorem Mirrors.commands (h : x.Mirrors) :
    (x.indexer.drain x.custody.log).1 = x.delivers.map (Indexer.translate ∘ Prod.fst) := by
  have hentries : x.history.map Prod.fst = x.custody.log.entries :=
    List.map_fst_zip h.aligned.ge
  unfold Indexer.drain delivers
  cases x.indexer.horizon x.custody.log.head with
  | none => rfl
  | some horizon =>
      dsimp only
      rw [Indexer.drainFrom_commands, Indexer.passFrom, ← hentries, ← List.map_drop, ← Feed.walk_map,
        List.map_map]

theorem Mirrors.drain (h : x.Mirrors) (clock : Nat → Nat) (capacity : Nat) :
    (x.drain clock capacity).Mirrors := by
  have hfree : ∀ a t', (x.drain clock capacity).engine.market.totals a = some t' →
      ∃ t, x.engine.market.totals a = some t ∧
        t'.free = Harness.lastCredit a (x.indexer.drain x.custody.log).1 t.free := by
    intro a t' ht'
    have hsome : (x.engine.market.totals a).isSome = true :=
      (h.sane.totals_run _).symm.trans (congrArg Option.isSome ht')
    obtain ⟨t, ht⟩ := Option.isSome_iff_exists.mp hsome
    refine ⟨t, ht, ?_⟩
    rw [h.sane.free_run _ ht ht', List.map_map]
    exact congrArg (Harness.lastCredit a · t.free) (List.zipIdx_map_fst 0 _)
  obtain ⟨htracks, hbacklog⟩ := h.tracks.drain
  refine ⟨?_, h.aligned, h.history, fun p hp => ?_, fun a t' ht' => ?_, htracks, h.minted,
    fun hnext a t' ht' => ?_⟩
  · exact h.sane.sane_run _
  · rcases List.mem_append.mp hp with hp | hp
    · exact h.read p hp
    · refine h.history p ?_
      unfold delivers at hp
      split at hp
      · cases hp
      · exact List.mem_of_mem_drop (Feed.walk_sublist.subset hp)
  · obtain ⟨t, ht, heq⟩ := hfree a t' ht'
    show t'.free = Harness.lastCredit a ((x.read ++ x.delivers).map _) 0
    rw [heq, List.map_append, Harness.lastCredit_append, ← h.free a t ht, h.commands]
  · obtain ⟨t, ht, heq⟩ := hfree a t' ht'
    have hcurrent := h.current hnext a t ht
    rw [hbacklog, Harness.lastCredit_append, ← heq] at hcurrent
    exact hcurrent

theorem Mirrors.perform (h : x.Mirrors) (op : MirrorOp) : (x.perform op).Mirrors := by
  cases op with
  | deposit account amount =>
      obtain ⟨_, hposts⟩ := CustodyLedger.posts_deposit (l := x.custody)
      exact h.wrote hposts.writes
  | requestWithdrawal account amount now =>
      obtain ⟨_, hposts⟩ := CustodyLedger.posts_requestWithdrawal (l := x.custody)
      exact h.wrote hposts.writes
  | executeWithdrawal account now =>
      obtain ⟨_, hposts⟩ := CustodyLedger.posts_executeWithdrawal (l := x.custody)
      exact h.wrote hposts.writes
  | submit bundle => exact h.wrote (CustodyLedger.writes_quiet rfl rfl)
  | includeNext now =>
      obtain ⟨_, hwrites⟩ := CustodyLedger.writes_includeNext x.custody now
      exact h.wrote hwrites
  | dropNextSubmission =>
      have hwrites : CustodyLedger.Writes x.custody x.custody.dropNextSubmission.2 [] := by
        unfold CustodyLedger.dropNextSubmission
        split <;> exact CustodyLedger.writes_quiet rfl rfl
      exact h.wrote hwrites
  | settleEscrow id contract outcome =>
      obtain ⟨_, hposts⟩ := CustodyLedger.posts_settleEscrow (l := x.custody)
      exact h.wrote hposts.writes
  | advanceBlock =>
      exact ⟨h.sane, h.aligned, h.history, h.read, h.free, h.tracks.advanceBlock, h.minted, h.current⟩
  | drain clock capacity => exact h.drain clock capacity
  | rewind => exact ⟨h.sane, h.aligned, h.history, h.read, h.free, h.tracks.rewind, h.minted, h.current⟩
  | command command hgateway now capacity =>
      have hfree : ∀ a t', (x.engine.step ⟨command, now, capacity⟩).market.totals a = some t' →
          ∃ t, x.engine.market.totals a = some t ∧ t'.free = t.free := by
        intro a t' ht'
        obtain ⟨t, ht⟩ : ∃ t, x.engine.market.totals a = some t := by
          rw [← Option.isSome_iff_exists, ← h.sane.totals_step ⟨command, now, capacity⟩, ht']
          rfl
        refine ⟨t, ht, (h.sane.free_step _ ht ht').trans (Harness.lastCredit_of_not_credit ?_)⟩
        rintro free rfl
        cases hgateway
      refine ⟨h.sane.sane_step _, h.aligned, h.history, h.read, fun a t' ht' => ?_, h.tracks,
        h.minted, fun hnext a t' ht' => ?_⟩
      · obtain ⟨t, ht, heq⟩ := hfree a t' ht'
        exact heq.trans (h.free a t ht)
      · obtain ⟨t, ht, heq⟩ := hfree a t' ht'
        show Harness.lastCredit a (x.indexer.backlog x.custody.log) t'.free = _
        rw [heq]
        exact h.current hnext a t ht

theorem Mirrors.run (h : x.Mirrors) (ops : List MirrorOp) : (x.run ops).Mirrors := by
  induction ops generalizing x with
  | nil => exact h
  | cons op ops ih => exact ih (h.perform op)

theorem Reached.mirrors (h : Reached config confirmations maxAccounts maxEscrows x) : x.Mirrors := by
  obtain ⟨engine, ops, hnew, rfl⟩ := h
  exact (mirrors_start hnew).run ops

/-- The mirror is a delayed image of custody: the availability right after the operation
    that logged the last balance delivered, and the availability now with the cursor at
    the end of the log. -/
theorem mirror_delayed (h : Reached config confirmations maxAccounts maxEscrows x)
    {m : MirroredBalance} (hm : x.engine.ledger.account a = some m) :
    m.free = x.image a ∧
      (x.custody.log.Allocated → x.indexer.cursor = x.custody.log.entries.length →
        m.free = x.custody.available a) := by
  have hmirrors := h.mirrors
  have ht : x.engine.market.totals a = some m.totals := by
    show (x.engine.ledger.account a).map _ = _
    rw [hm]
    rfl
  refine ⟨hmirrors.image ht, fun hallocated hcursor => ?_⟩
  have hcurrent := hmirrors.current (hallocated.nextTx_lt hmirrors.minted) a m.totals ht
  rw [hmirrors.tracks.backlog_eq_nil hcursor] at hcurrent
  exact hcurrent

/-- Three systems that have done nothing yet. -/
def small : Mirroring := start ⟨Config.small, Ledger.new Config.small, 0⟩ 0 2 4

/-- A deposit, drained: the mirror is what is available. -/
theorem mirror_delayed_small : ∃ m,
    (small.run [.deposit 0 5, .drain (fun _ => 0) 8]).engine.ledger.account 0 = some m ∧
      m.free = 5 := by
  have hreached : Reached Config.small 0 2 4 (small.run [.deposit 0 5, .drain (fun _ => 0) 8]) :=
    ⟨_, _, rfl, rfl⟩
  obtain ⟨m, hm⟩ : ∃ m,
      (small.run [.deposit 0 5, .drain (fun _ => 0) 8]).engine.ledger.account 0 = some m :=
    Option.isSome_iff_exists.mp (by decide +kernel)
  have hfree := (mirror_delayed hreached hm).2 (by decide +kernel) (by decide +kernel)
  have havailable : (small.run [.deposit 0 5, .drain (fun _ => 0) 8]).custody.available 0 = 5 := by
    decide +kernel
  exact ⟨m, hm, hfree.trans havailable⟩

end Mirroring

end RfqSettlement
