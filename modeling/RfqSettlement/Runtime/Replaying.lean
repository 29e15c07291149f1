/-
  RfqSettlement.Runtime.Replaying

  The whole log, delivered once more to an engine that has heard all of it.

  The engine's mirror goes through the old balances and ends where it was, since the
  last balance logged of an account is what it has.  No answer finds a request that
  waits for it, because everything custody answered was heard; and custody pays no
  escrow twice (`replay_harmless`).
-/

import RfqSettlement.Core.Unmirrored
import RfqSettlement.Runtime.Lagless
import RfqSettlement.Runtime.Stranding

namespace RfqSettlement

-- ============================================================================
-- An indexer that has read to the end
-- ============================================================================

namespace Indexer

variable {indexer : Indexer} {log : ChainLog} {payload : ChainPayload}

/-- What was delivered is deep enough, and no two entries share a key. -/
structure Confirmed (indexer : Indexer) (log : ChainLog) : Prop where
  keys : (log.entries.map ChainEvent.key).Nodup
  deep : ∀ x ∈ log.entries, x.key ∈ indexer.delivered → x.block + indexer.confirmations ≤ log.head

theorem confirmed_new (confirmations : Nat) : Confirmed (new confirmations) .new :=
  ⟨by simp [ChainLog.new], by simp [ChainLog.new]⟩

theorem Confirmed.append (h : indexer.Confirmed log) (htracks : indexer.Tracks log)
    (hnext : log.nextTx < u64Max) : indexer.Confirmed (log.append payload) := by
  have hfresh : ∀ k, k ∈ log.entries.map ChainEvent.key ∨ k ∈ indexer.delivered →
      k ≠ (log.nextTx, 0) := by
    rintro k hk rfl
    have := htracks.minted _ hk
    omega
  constructor
  · rw [ChainLog.append, List.map_append, List.nodup_append]
    refine ⟨h.keys, List.nodup_singleton _, fun k hk k' hk' => ?_⟩
    rw [List.mem_singleton.mp hk']
    exact hfresh k (.inl hk)
  · intro x hx hseen
    rcases List.mem_append.mp hx with hx | hx
    · exact h.deep x hx hseen
    · rw [List.mem_singleton.mp hx] at hseen
      exact absurd rfl (hfresh _ (.inr hseen))

theorem Confirmed.appends (payloads : List ChainPayload) (h : indexer.Confirmed log)
    (htracks : indexer.Tracks log) (hnext : (payloads.foldl ChainLog.append log).nextTx < u64Max) :
    indexer.Confirmed (payloads.foldl ChainLog.append log) := by
  induction payloads generalizing log with
  | nil => exact h
  | cons payload payloads ih =>
      have hrest : (log.append payload).Extends (fun _ => true)
          (payloads.foldl ChainLog.append (log.append payload)) := ⟨payloads, by simp, rfl⟩
      have hone : log.Extends (fun _ => true) (log.append payload) := ChainLog.extends_append _ rfl
      have hlt := Nat.lt_of_le_of_lt (hrest.nextTx_le htracks.append.hashes) hnext
      have hbefore := Nat.lt_of_le_of_lt (hone.nextTx_le htracks.hashes) hlt
      exact ih (h.append htracks hbefore) htracks.append hnext

theorem Confirmed.advanceBlock (h : indexer.Confirmed log) (htracks : indexer.Tracks log) :
    indexer.Confirmed log.advanceBlock where
  keys := h.keys
  deep x hx hseen := by
    have := h.deep x hx hseen
    have := htracks.head
    simp only [ChainLog.advanceBlock, saturatingAdd]
    omega

theorem Confirmed.drain (h : indexer.Confirmed log) : (indexer.drain log).2.Confirmed log := by
  refine ⟨h.keys, fun x hx hseen => ?_⟩
  rw [confirmations_drain]
  unfold Indexer.drain at hseen
  cases hhorizon : indexer.horizon log.head with
  | none =>
      rw [hhorizon] at hseen
      exact h.deep x hx hseen
  | some horizon =>
      rw [hhorizon] at hseen
      rcases mem_delivered_drainFrom.mp hseen with hseen | ⟨y, hy, hkey⟩
      · exact h.deep x hx hseen
      · rw [passFrom, Feed.walk_eq_fresh] at hy
        have hy := Feed.walk_sublist.subset hy
        have hentry : y ∈ log.entries := List.mem_of_mem_drop ((List.takeWhile_sublist _).subset hy)
        obtain rfl := List.inj_on_of_nodup_map h.keys hentry hx hkey
        have hdeep : y.block ≤ horizon := by simpa [Indexer.deep] using List.mem_takeWhile_imp hy
        have := horizon_eq_some hhorizon
        omega

/-- With all of it delivered, an indexer that has forgotten everything delivers the whole log. -/
theorem Confirmed.replay (h : indexer.Confirmed log) (htracks : indexer.Tracks log)
    (hdelivered : ∀ x ∈ log.entries, x.key ∈ indexer.delivered) :
    (indexer.forgetEverything.drain log).1 = indexer.forgetEverything.backlog log ∧
      indexer.forgetEverything.backlog log = log.entries.map translate := by
  obtain ⟨hafter, hbacklog⟩ := htracks.forgetEverything.drain
  have hnothing : (indexer.forgetEverything.drain log).2.backlog log = [] :=
    backlog_drain hafter fun x hx => h.deep x hx (hdelivered x hx)
  rw [hnothing, List.append_nil] at hbacklog
  refine ⟨hbacklog.symm, ?_⟩
  have hall : Feed.fresh ChainEvent.key [] log.entries = log.entries.takeWhile fun _ => true :=
    Feed.walk_fresh h.keys (by simp)
  rw [backlog, waiting, show indexer.forgetEverything.delivered = [] from rfl, hall,
    List.takeWhile_eq_self_iff.mpr fun _ _ => rfl]

end Indexer

-- ============================================================================
-- What custody answered stands in its log
-- ============================================================================

namespace CustodyLedger

variable {l l' : CustodyLedger} {nonce : Nonce} {status : TxStatus}

/-- Custody's own books, beside its log. -/
structure Kept (l : CustodyLedger) : Prop where
  conserved : l.Conserved
  paidOnce : l.PaidOnce
  answered : ∃ txs, l.Answered txs

theorem kept_new (withdrawalDelay maxAccounts maxEscrows : Nat) :
    (new withdrawalDelay maxAccounts maxEscrows).Kept :=
  ⟨conserved_new _ _ _, fun id => by simp [new, paidFor, escrow, owedSoFar], [], answered_new _ _ _⟩

theorem Kept.move {own : CustodyOp → Prop} (h : l.Kept) (hmoved : Harness.CustodyMove own l l')
    (hown : ∀ custodyOp, own custodyOp → custodyOp.submits = true) : l'.Kept := by
  obtain ⟨txs, hanswered⟩ := h.answered
  cases hmoved with
  | same => exact h
  | @performed custodyOp hsubmits =>
      exact ⟨h.conserved.perform custodyOp, (escrowMoves_perform h.conserved custodyOp).paidOnce h.paidOnce,
        _, hanswered.perform (hsubmits.elim id (hown custodyOp))⟩
  | logged hrequest =>
      exact ⟨h.conserved.withLog _, h.paidOnce, txs,
        hanswered.same rfl (fun _ => Harness.resolutions_append_request hrequest) rfl⟩
  | mined => exact ⟨h.conserved.withLog _, h.paidOnce, txs, hanswered.same rfl (fun _ => rfl) rfl⟩

/-- An answer in the log is the one on record. -/
theorem Kept.resolved {x : ChainEvent} (h : l.Kept) (hx : x ∈ l.log.entries)
    (hcommand : Indexer.translate x = .pollSettlement nonce status) : l.resolved nonce = some status := by
  obtain ⟨txs, hanswered⟩ := h.answered
  have hmem := Harness.mem_resolutions hx hcommand
  rw [hanswered.announced nonce, Option.mem_toList] at hmem
  exact hmem

end CustodyLedger

-- ============================================================================
-- The invariant
-- ============================================================================

namespace Harness

variable {config : Config} {clocks : Clocks} {ok : Harness → HarnessOp → Prop} {op : HarnessOp}
  {h h' : Harness} {commands commands' : List Command} {command : Command}
  {inputs : List Engine.Input}

/-- Bundles reach custody through the harness, commands of the chain reach the engine through
    the indexer, and the chain is not reorganised. -/
def Routed (_ : Harness) : HarnessOp → Prop
  | .apply command => command.isGateway = true
  | .custody op => op.carries = false
  | .reorg _ => False
  | _ => True

theorem Routed.unforked (hok : Routed h op) : Unforked h op := by
  cases op with
  | apply => exact hok
  | reorg => exact hok
  | _ => trivial

theorem Routed.announced (hok : Routed h op) : Announced h op := by
  cases op with
  | custody => exact hok
  | reorg => exact hok.elim
  | _ => trivial

/-- What holds of the two systems and the log between them. -/
structure Recorded (h : Harness) (commands : List Command) : Prop where
  answering : Answering h commands
  follows : Follows h commands
  kept : h.custody.Kept
  confirmed : h.custody.log.nextTx < u64Max → h.indexer.Confirmed h.custody.log

theorem recorded_new (hnew : new config = .ok h) : Recorded h [] := by
  refine ⟨answering_new hnew, follows_new hnew, ?_, ?_⟩
  all_goals obtain ⟨engine, -, rfl⟩ := new_eq_ok hnew
  · exact CustodyLedger.kept_new _ _ _
  · exact fun _ => Indexer.confirmed_new _

theorem Recorded.confirmed_chain (hr : Recorded h commands) (hindexer : h'.indexer = h.indexer)
    (hmoved : CustodyLedger.Informs h.custody h'.custody ∨
      h'.custody = { h.custody with log := h.custody.log.advanceBlock })
    (hnext : h'.custody.log.nextTx < u64Max) : h'.indexer.Confirmed h'.custody.log := by
  have htracks := hr.answering.tracks
  rw [hindexer]
  rcases hmoved with hinforms | hmined
  · have hlt := Nat.lt_of_le_of_lt (hinforms.nextTx_le htracks) hnext
    obtain ⟨payloads, hlog, -⟩ := hinforms
    rw [hlog] at hnext ⊢
    exact (hr.confirmed hlt).appends payloads htracks hnext
  · rw [hmined] at hnext ⊢
    exact (hr.confirmed hnext).advanceBlock htracks

theorem Recorded.move (hr : Recorded h commands) (hmove : Move clocks ok op h commands h' commands')
    (hok : ∀ h op, ok h op → Routed h op) : Recorded h' commands' := by
  have hunforked : ∀ h op, ok h op → Unforked h op := fun h op hallowed => (hok h op hallowed).unforked
  refine ⟨hr.answering.move hmove fun h op hallowed => (hok h op hallowed).announced,
    hr.follows.move hr.answering.sane hr.answering.tracks hmove hunforked,
    hr.kept.move (hmove.custody hunforked) fun custodyOp hallowed => ?_, ?_⟩
  · have hcarries : custodyOp.carries = false := hok h _ hallowed
    cases custodyOp <;> first | rfl | cases hcarries
  · have hinforms := hmove.informs hunforked
    cases hmove with
    | drained => exact fun hnext => (hr.confirmed hnext).drain
    | rewound => exact fun hnext => ⟨(hr.confirmed hnext).keys, (hr.confirmed hnext).deep⟩
    | forgot => exact fun hnext => ⟨(hr.confirmed hnext).keys, by simp [Indexer.forgetEverything]⟩
    | _ => exact hr.confirmed_chain rfl hinforms

theorem Reached.recorded (hreached : Reached config clocks Routed h) : Recorded h [] :=
  hreached.induct (P := fun h commands => Recorded h commands) (fun _ hnew => recorded_new hnew)
    fun _ _ _ _ _ hmove hr => hr.move hmove fun _ _ => id

-- ============================================================================
-- Payouts
-- ============================================================================

theorem escrowMoves_pay {l : CustodyLedger} (events : List Event) (hl : l.Conserved) :
    CustodyLedger.EscrowMoves l (events.foldl pay l) := by
  induction events generalizing l with
  | nil => exact .refl
  | cons event events ih =>
      cases event with
      | settleIntent escrow contract outcome =>
          have hpaid := hl.perform (.ledger (.settleEscrow escrow contract outcome))
          exact (CustodyLedger.escrowMoves_apply hl (.settleEscrow escrow contract outcome)).trans (ih hpaid)
      | _ => exact ih hl

/-- However many intents are applied, an escrow is credited once, and one that was credited
    before is not credited again. -/
theorem paid_once {l : CustodyLedger} (hl : l.Kept) (events : List Event) :
    (events.foldl pay l).PaidOnce ∧
      ∀ id, l.paidFor id ≠ [] → (events.foldl pay l).paidFor id = l.paidFor id := by
  have hmoves := escrowMoves_pay events hl.conserved
  have hpaid := hmoves.paidOnce hl.paidOnce
  refine ⟨hpaid, fun id hcredited => ?_⟩
  have hbefore := hl.paidOnce id
  rw [hbefore] at hcredited
  cases he : l.escrow id with
  | none =>
      rw [he] at hcredited
      exact absurd rfl hcredited
  | some e =>
      rw [he] at hcredited
      rcases hmoves.evolves id e he with hsame | ⟨hlocked, -⟩
      · rw [hpaid id, hbefore, hsame, he]
      · simp [CustodyLedger.owedSoFar, hlocked] at hcredited

-- ============================================================================
-- The replay
-- ============================================================================

section Delivered

variable (hr : Recorded h []) (hnext : h.custody.log.nextTx < u64Max)
  (hdelivered : ∀ x ∈ h.custody.log.entries, x.key ∈ h.indexer.delivered)

include hr hnext hdelivered

/-- What the log holds was heard, so nothing of it answers a request that still waits. -/
theorem Recorded.stale {x : ChainEvent} (hx : x ∈ h.custody.log.entries) :
    h.engine.Stale (Indexer.translate x) := by
  cases hpayload : x.payload with
  | settlementResolved nonce status =>
      have hcommand : Indexer.translate x = .pollSettlement nonce status := by
        rw [Indexer.translate, hpayload]
      rw [hcommand]
      intro r y deadline hy hstate
      have hresolved := hr.kept.resolved hx hcommand
      have hawaits : h.engine.Awaits nonce := ⟨r, y.auction, deadline, Ledger.market_auctions hy, hstate⟩
      have hcoming := hr.answering.coming hnext nonce status hresolved hawaits
      rw [Harness.coming, Indexer.backlog, Indexer.waiting, Feed.fresh_eq_nil hdelivered] at hcoming
      cases hcoming
  | _ =>
      rw [Indexer.translate, hpayload]
      trivial

/-- The balances logged end with those there are. -/
theorem Recorded.lastCredit_logged {a : Nat} {t : Totals} (ht : h.engine.market.totals a = some t) :
    lastCredit a h.logged t.free = t.free := by
  have hcurrent := hr.follows.current hnext a t ht
  rw [Harness.coming, Indexer.backlog, Indexer.waiting, Feed.fresh_eq_nil hdelivered] at hcurrent
  have hcurrent : t.free = h.custody.available a := hcurrent
  rw [hr.follows.replayed hnext a t ht, hcurrent]

/-- So an engine that hears them all has the balances it had. -/
theorem Recorded.free_replayed (hinputs : inputs.map Engine.Input.command = h.logged) (a : Nat) :
    ((h.engine.run inputs).ledger.account a).map MirroredBalance.free =
      (h.engine.ledger.account a).map MirroredBalance.free := by
  have hsane := hr.answering.sane
  have hknown := hsane.totals_run (a := a) inputs
  cases ht : h.engine.market.totals a with
  | none =>
      rw [ht, Option.isSome_none, Option.isSome_eq_false_iff, Option.isNone_iff_eq_none] at hknown
      rw [Option.map_eq_none_iff.mp hknown, Option.map_eq_none_iff.mp ht]
  | some t =>
      rw [ht, Option.isSome_some, Option.isSome_iff_exists] at hknown
      obtain ⟨t', ht'⟩ := hknown
      have hlast := hsane.free_run inputs ht ht'
      rw [hinputs, hr.lastCredit_logged hnext hdelivered ht] at hlast
      obtain ⟨m, hm, rfl⟩ := Option.map_eq_some_iff.mp ht
      obtain ⟨m', hm', rfl⟩ := Option.map_eq_some_iff.mp ht'
      rw [hm, hm']
      exact congrArg some hlast

end Delivered

/-- With all of the log delivered, all of it delivered once more changes no mirrored balance;
    it leaves requests, quotes and claims as sweeps of the accounts it touches leave them, and
    every request where it was; it tells nobody of a settlement; and with the payouts it
    orders, whichever were queued before them, no escrow is credited twice. -/
theorem replay_harmless (hreached : Reached config clocks Routed h) (hallocated : h.custody.log.Allocated)
    (hdelivered : ∀ x ∈ h.custody.log.entries, x.key ∈ h.indexer.delivered)
    (hinputs : inputs.map Engine.Input.command =
      (h.indexer.forgetEverything.drain h.custody.log).1) :
    (h.indexer.forgetEverything.drain h.custody.log).1 = h.custody.log.entries.map Indexer.translate ∧
      (∀ a, ((h.engine.run inputs).ledger.account a).map MirroredBalance.free =
        (h.engine.ledger.account a).map MirroredBalance.free) ∧
      (h.engine.run inputs).ledger = { (h.engine.sweptFor inputs).ledger with
        contracts := (h.engine.run inputs).ledger.contracts } ∧
      (∀ r, ((h.engine.run inputs).ledger.request r).map Request.state =
        (h.engine.ledger.request r).map Request.state) ∧
      (∀ r nonce, .requestEscrowed r nonce ∉ h.engine.emitted inputs ∧
        .requestSettlementFailed r nonce ∉ h.engine.emitted inputs) ∧
      ∀ queued : List Event,
        ((queued ++ h.engine.emitted inputs).foldl pay h.custody).PaidOnce ∧
          ∀ id, h.custody.paidFor id ≠ [] →
            ((queued ++ h.engine.emitted inputs).foldl pay h.custody).paidFor id =
              h.custody.paidFor id := by
  have hr := hreached.recorded
  have hsane := hr.answering.sane
  have hnext := hallocated.nextTx_lt (hreached.minted fun _ _ => Routed.unforked)
  obtain ⟨hdrained, hlogged⟩ := (hr.confirmed hnext).replay hr.answering.tracks hdelivered
  have hstale : ∀ input ∈ inputs, h.engine.Stale input.command := by
    intro input hinput
    have hcommand : input.command ∈ h.custody.log.entries.map Indexer.translate := by
      rw [← hlogged, ← hdrained, ← hinputs]
      exact List.mem_map_of_mem hinput
    obtain ⟨x, hx, heq⟩ := List.mem_map.mp hcommand
    rw [← heq]
    exact hr.stale hnext hdelivered hx
  have hfree := hr.free_replayed hnext hdelivered (hinputs.trans hdrained)
  refine ⟨hdrained.trans hlogged, hfree, hsane.stale_ledger hstale hfree, hsane.stale_states hstale, ?_,
    fun queued => paid_once hr.kept _⟩
  refine fun r nonce => ⟨fun hmem => ?_, fun hmem => ?_⟩
  · cases (hsane.stale_run hstale).2 _ hmem
  · cases (hsane.stale_run hstale).2 _ hmem

/-- A trade paid out, and a quote on another request that expires before the log is replayed. -/
def heardOps : List HarnessOp :=
  tradeOps ++ [.reportOracleStatus 0 (.final .yes), .advanceBlock, .requestEscrowSettlement 0 0 .yes,
    .advanceBlock, .applyPayouts, .advanceBlock, .apply (.submitRequest 0 50 [⟨0, .yes, 1, 600000⟩]),
    .apply (.submitQuote 1 ⟨1, 0⟩ 0 500000 1 40)]

def heard : Harness := small.run (stopped 5) heardOps

/-- All of its log once more, one instant after another. -/
def again : List Engine.Input :=
  (heard.indexer.forgetEverything.drain heard.custody.log).1.zipIdx.map fun c => ⟨c.1, 45 + c.2, 8⟩

/-- On the way the balance of account 0 is its first again; and the escrow it asks to be paid
    once more stays paid once. -/
theorem replay_harmless_heard :
    ((heard.engine.run (again.take 2)).ledger.account 0).map MirroredBalance.free = some 10000000 ∧
      ((heard.engine.run again).ledger.account 0).map MirroredBalance.free = some 11000000 ∧
      (heard.engine.run again).ledger ≠ heard.engine.ledger ∧
      (heard.engine.run again).ledger = { (heard.engine.sweptFor again).ledger with
        contracts := (heard.engine.run again).ledger.contracts } ∧
      .settleIntent 0 0 .yes ∈ heard.engine.emitted again ∧
      ((heard.engine.emitted again).foldl pay heard.custody).paidFor 0 = [2000000] := by
  have hreached : Reached Config.small (stopped 5) Routed heard :=
    reached_small.run heardOps (by simp [heardOps, tradeOps, Lets, Routed, Command.isGateway])
  have hcommands : again.map Engine.Input.command =
      (heard.indexer.forgetEverything.drain heard.custody.log).1 := by
    rw [again, List.map_map]
    exact List.zipIdx_map_fst 0 _
  obtain ⟨-, hfree, hledger, -, -, hpaid⟩ :=
    replay_harmless hreached (by decide +kernel) (by decide +kernel) hcommands
  have hbefore : heard.custody.paidFor 0 = [2000000] := by decide +kernel
  have hafter := (hpaid []).2 0 (by rw [hbefore]; simp)
  rw [List.nil_append, hbefore] at hafter
  refine ⟨by decide +kernel, ?_, by decide +kernel, hledger, by decide +kernel, hafter⟩
  rw [hfree 0]
  decide +kernel

end Harness

end RfqSettlement
