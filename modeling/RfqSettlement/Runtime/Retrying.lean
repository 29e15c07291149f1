/-
  RfqSettlement.Runtime.Retrying

  A lost submission is a delay, and nothing else.

  The submitter keeps what it sent.  Whatever it lost on the way, sending the bundles of
  the settling requests again, including what is queued and mining the blocks that confirm
  it brings each of them custody's answer, and no capital stays committed for them.
-/

import RfqSettlement.Runtime.Lagless
import RfqSettlement.Runtime.Stranding

namespace RfqSettlement

-- ============================================================================
-- An inclusion answers
-- ============================================================================

namespace CustodyLedger

variable {l : CustodyLedger} {hook : List LedgerOp} {behind : Nat} {clock : Nat → Nat} {b : Bundle}

theorem resolved_includeNext (hook : List LedgerOp) (now : Nat) {pending : List Bundle}
    (hpending : l.pending = b :: pending) :
    ∃ tx status, (l.includeNext hook now).1 = some tx ∧
      (l.includeNext hook now).2.resolved b.nonce = some status := by
  have hcases := includeNext_cases l hook now
  generalize l.includeNext hook now = result at hcases ⊢
  cases hcases with
  | idle hidle =>
      rw [hpending] at hidle
      cases hidle
  | bounced hqueue hresolved =>
      obtain ⟨rfl, rfl⟩ := List.cons.inj (hpending.symm.trans hqueue)
      exact ⟨_, _, rfl, hresolved⟩
  | reverted hqueue =>
      obtain ⟨rfl, rfl⟩ := List.cons.inj (hpending.symm.trans hqueue)
      exact ⟨_, _, rfl, Function.update_self _ _ _⟩
  | settled hqueue =>
      obtain ⟨rfl, rfl⟩ := List.cons.inj (hpending.symm.trans hqueue)
      exact ⟨_, _, rfl, Function.update_self _ _ _⟩

theorem final_includeRest : Final l (includeRest hook clock behind l).2 :=
  includeRest_induct (P := Final l) (fun l' now hl' => hl'.trans (final_includeNext l' hook now)) _
    (final_of_resolved rfl)

/-- Everything queued is answered. -/
theorem resolved_includeAll (hb : b ∈ l.pending) :
    ∃ status, (l.includeAll hook clock).2.resolved b.nonce = some status := by
  have hrest : ∀ behind (l : CustodyLedger), l.pending.length = behind → b ∈ l.pending →
      ∃ status, (includeRest hook clock behind l).2.resolved b.nonce = some status := by
    intro behind
    induction behind with
    | zero =>
        intro l hlen hb
        rw [List.length_eq_zero_iff.mp hlen] at hb
        cases hb
    | succ behind ih =>
        intro l hlen hb
        obtain ⟨x, pending, hpending⟩ := List.exists_cons_of_length_eq_add_one hlen
        have hnext := pending_includeNext l hook (clock behind)
        obtain ⟨tx, status, htx, hstatus⟩ := resolved_includeNext hook (clock behind) hpending
        rw [includeRest]
        split
        next heq =>
          rw [heq] at htx
          cases htx
        next heq =>
          rw [heq] at hnext hstatus
          dsimp only at hnext hstatus ⊢
          rw [hpending, List.tail_cons] at hnext
          rw [hpending] at hb hlen
          rcases List.mem_cons.mp hb with rfl | hb
          · exact ⟨status, final_includeRest _ _ hstatus⟩
          · exact ih _ (by rw [hnext]; exact Nat.succ.inj hlen) (hnext ▸ hb)
  exact hrest _ l rfl hb

end CustodyLedger

namespace Harness

variable {config : Config} {clocks : Clocks} {ok : Harness → HarnessOp → Prop} {op : HarnessOp}
  {h h' : Harness} {commands commands' : List Command} {command : Command} {r : ReqIdx}
  {rs : List ReqIdx} {b : Bundle} {n account : Nat} {t : Totals}

-- ============================================================================
-- What a retry relies on
-- ============================================================================

/-- Commands and bundles go their way, and no reorg takes an answer back. -/
def Undisturbed (h : Harness) (op : HarnessOp) : Prop := Straight h op ∧ Announced h op

/-- Engine and custody agree, what was answered is coming, and every bundle handed over is
    still to be submitted or was kept. -/
structure Retriable (config : Config) (clocks : Clocks) (h : Harness) (commands : List Command) : Prop where
  timed : Timed config clocks h
  agrees : Agrees h commands
  answering : Answering h commands
  kept : ∀ b ∈ h.intents, b ∈ h.pending ∨ b ∈ h.inFlight
  confirmations : h.indexer.confirmations = config.confirmations

theorem retriable_new (hnew : new config = .ok h) : Retriable config clocks h [] := by
  refine ⟨timed_new hnew, agrees_new hnew, answering_new hnew, ?_, ?_⟩
  all_goals obtain ⟨engine, hengine, rfl⟩ := new_eq_ok hnew
  · simp [start, intents]
  · obtain ⟨-, rfl⟩ := Engine.new_eq_ok hengine
    rfl

theorem kept_turn (hkept : ∀ b ∈ h.intents, b ∈ h.pending ∨ b ∈ h.inFlight) {bundles : List Bundle}
    (hintents : h'.intents = h.intents ++ bundles) (hpending : h'.pending = h.pending ++ bundles)
    (hinFlight : h'.inFlight = h.inFlight) : ∀ b ∈ h'.intents, b ∈ h'.pending ∨ b ∈ h'.inFlight := by
  intro b hb
  rw [hpending, hinFlight]
  rw [hintents] at hb
  rcases List.mem_append.mp hb with hb | hb
  · exact (hkept b hb).imp_left (List.mem_append_left _)
  · exact .inl (List.mem_append_right _ hb)

theorem Retriable.move (hretriable : Retriable config clocks h commands) (hmono : Monotone clocks.engine)
    (hmove : Move clocks ok op h commands h' commands') (hok : ∀ h op, ok h op → Undisturbed h op) :
    Retriable config clocks h' commands' := by
  refine ⟨hretriable.timed.move hmono hmove,
    hretriable.agrees.move hretriable.timed hmove fun h op hallowed => (hok h op hallowed).1,
    hretriable.answering.move hmove fun h op hallowed => (hok h op hallowed).2, ?_, ?_⟩
  · have hkept := hretriable.kept
    cases hmove with
    | applied => exact kept_turn hkept intents_apply pending_apply rfl
    | polled => exact kept_turn hkept intents_apply pending_apply rfl
    | delivered => exact kept_turn hkept intents_deliver pending_deliver rfl
    | @sent bundle pending hop hpending =>
        intro b hb
        rcases hkept b hb with hmem | hmem
        · rw [hpending] at hmem
          rcases List.mem_cons.mp hmem with rfl | hmem
          · exact .inr (List.mem_append_right _ List.mem_cons_self)
          · exact .inl hmem
        · exact .inr (List.mem_append_left _ hmem)
    | _ => exact hkept
  · have hconfirmations := hretriable.confirmations
    cases hmove with
    | drained => exact Indexer.confirmations_drain.trans hconfirmations
    | _ => exact hconfirmations

theorem Reached.retriable (hreached : Reached config clocks ok h) (hmono : Monotone clocks.engine)
    (hok : ∀ h op, ok h op → Undisturbed h op) : Retriable config clocks h [] :=
  hreached.induct (P := fun h commands => Retriable config clocks h commands)
    (fun _ hnew => retriable_new hnew) fun _ _ _ _ _ hmove hretriable => hretriable.move hmono hmove hok

/-- The bundle of a request is the one its index finds. -/
theorem Agrees.found (hagrees : Agrees h commands) (hb : b ∈ h.inFlight) (hnonce : b.nonce = Nonce.of r) :
    (h.inFlight.find? fun x => decide (x.nonce.request = r.index)) = some b := by
  have hstored : ∀ x ∈ h.intents, ∃ record, h.engine.ledger.request x.basket = some record := by
    intro x hx
    cases hagrees.fate x hx with
    | awaits hauction =>
        obtain ⟨record, hrecord, -⟩ := Ledger.request_of_market hauction
        exact ⟨record, hrecord⟩
    | answered hauction =>
        obtain ⟨record, hrecord, -⟩ := Ledger.request_of_market hauction
        exact ⟨record, hrecord⟩
  have hindex : b.nonce.request = r.index := by
    rw [hnonce]
    rfl
  cases hfind : h.inFlight.find? fun x => decide (x.nonce.request = r.index) with
  | none => exact absurd hindex (by simpa using List.find?_eq_none.mp hfind b hb)
  | some x =>
      have hx := List.mem_of_find?_eq_some hfind
      have hsame : x.nonce.request = r.index := by simpa using List.find?_some hfind
      have hxin := hagrees.kept x (.inr (.inl hx))
      have hbin := hagrees.kept b (.inr (.inl hb))
      obtain ⟨y, hy⟩ := hstored x hxin
      obtain ⟨z, hz⟩ := hstored b hbin
      -- two requests stored under one index are one
      have hhandle : some x.basket = some b.basket := by
        rw [← Slab.handleAt_of_get hy, ← Slab.handleAt_of_get hz]
        exact congrArg _ (hsame.trans hindex.symm)
      have hnonces : x.nonce = b.nonce := congrArg Nonce.of (Option.some.inj hhandle)
      rw [List.inj_on_of_nodup_map hagrees.unique hxin hbin hnonces]

-- ============================================================================
-- The operations of a retry
-- ============================================================================

/-- Send what is pending and the bundles of `rs` again, include everything, and mine `n` blocks. -/
def retry (rs : List ReqIdx) (n : Nat) : List HarnessOp :=
  .submitPending :: (rs.map .resubmit ++ .includeAll :: List.replicate n .advanceBlock)

theorem lets_of_forall {ops : List HarnessOp} (hall : ∀ op ∈ ops, ∀ h, ok h op) : Lets clocks ok h ops := by
  induction ops generalizing h with
  | nil => trivial
  | cons op ops ih =>
      obtain ⟨hop, hrest⟩ := List.forall_mem_cons.mp hall
      exact ⟨hop h, ih hrest⟩

theorem undisturbed_retry : ∀ op ∈ retry rs n, ∀ h, Undisturbed h op := by
  intro op hop h
  rcases List.mem_cons.mp hop with rfl | hop
  · exact ⟨trivial, trivial⟩
  rcases List.mem_append.mp hop with hop | hop
  · obtain ⟨r, -, rfl⟩ := List.mem_map.mp hop
    exact ⟨trivial, trivial⟩
  rcases List.mem_cons.mp hop with rfl | hop
  · exact ⟨trivial, trivial⟩
  · rw [List.eq_of_mem_replicate hop]
    exact ⟨trivial, trivial⟩

theorem run_retry : h.run clocks (retry rs n) =
    ((h.submitPending.run clocks (rs.map .resubmit)).includeAll clocks).2.run clocks
      (List.replicate n .advanceBlock) := by
  rw [retry, run, List.foldl_cons, List.foldl_append, List.foldl_cons]
  rfl

theorem submitted : h.submitPending.pending = [] ∧
    h.submitPending.indexerStalled = h.indexerStalled ∧ h.submitPending.intents = h.intents := by
  have hsend : ∀ (bundles : List Bundle) (h₁ : Harness),
      (bundles.foldl send h₁).pending = h₁.pending ∧
        (bundles.foldl send h₁).indexerStalled = h₁.indexerStalled ∧
          (bundles.foldl send h₁).intents = h₁.intents := by
    intro bundles
    induction bundles with
    | nil => exact fun _ => ⟨rfl, rfl, rfl⟩
    | cons bundle bundles ih => exact fun h₁ => ih (h₁.send bundle)
  exact hsend h.pending _

/-- Nothing is lost by sending again, and every bundle found is queued. -/
theorem resubmitted (clocks : Clocks) (rs : List ReqIdx) (h : Harness) :
    (h.run clocks (rs.map .resubmit)).indexerStalled = h.indexerStalled ∧
      (∀ b ∈ h.custody.pending, b ∈ (h.run clocks (rs.map .resubmit)).custody.pending) ∧
      ∀ r ∈ rs, ∀ b, (h.inFlight.find? fun x => decide (x.nonce.request = r.index)) = some b →
        b ∈ (h.run clocks (rs.map .resubmit)).custody.pending := by
  induction rs generalizing h with
  | nil => exact ⟨rfl, fun _ hb => hb, by simp⟩
  | cons r rs ih =>
      obtain ⟨hstalled, hqueue, hfound⟩ := ih (h.perform clocks (.resubmit r))
      have hone : (h.perform clocks (.resubmit r)).indexerStalled = h.indexerStalled ∧
          (h.perform clocks (.resubmit r)).inFlight = h.inFlight ∧
          (∀ b ∈ h.custody.pending, b ∈ (h.perform clocks (.resubmit r)).custody.pending) ∧
          ∀ b, (h.inFlight.find? fun x => decide (x.nonce.request = r.index)) = some b →
            b ∈ (h.perform clocks (.resubmit r)).custody.pending := by
        rw [perform, resubmit]
        split
        next hnone =>
          refine ⟨rfl, rfl, fun _ hb => hb, fun b hb => ?_⟩
          rw [hnone] at hb
          cases hb
        next x hsome =>
          refine ⟨rfl, rfl, fun b hb => List.mem_append_left _ hb, fun b hb => ?_⟩
          rw [hsome] at hb
          obtain rfl := Option.some.inj hb
          exact List.mem_append_right _ List.mem_cons_self
      obtain ⟨hstalled', hinFlight, hqueue', hfound'⟩ := hone
      refine ⟨hstalled.trans hstalled', fun b hb => hqueue b (hqueue' b hb), fun r' hr' b hb => ?_⟩
      rcases List.mem_cons.mp hr' with rfl | hr'
      · exact hqueue b (hfound' b hb)
      · exact hfound r' hr' b (hinFlight ▸ hb)

@[simp] theorem custody_pumpIndexer : (h.pumpIndexer clocks).2.custody = h.custody := by
  unfold pumpIndexer
  split
  · rfl
  · exact custody_foldl_deliver

@[simp] theorem indexerStalled_pumpIndexer :
    (h.pumpIndexer clocks).2.indexerStalled = h.indexerStalled := by
  unfold pumpIndexer
  split
  · rfl
  · exact indexerStalled_foldl_deliver

theorem resolved_included (clocks : Clocks) (hb : b ∈ h.custody.pending) :
    ∃ status, (h.includeAll clocks).2.custody.resolved b.nonce = some status := by
  rw [includeAll]
  dsimp only
  rw [custody_pumpIndexer]
  exact CustodyLedger.resolved_includeAll hb

/-- Mining logs nothing and answers nothing, and what was pumped is pumped again. -/
theorem advanced (n : Nat) (h : Harness) :
    (h.run clocks (List.replicate n .advanceBlock)).indexerStalled = h.indexerStalled ∧
      (h.run clocks (List.replicate n .advanceBlock)).custody.resolved = h.custody.resolved ∧
      (h.run clocks (List.replicate n .advanceBlock)).custody.log.entries = h.custody.log.entries ∧
      ((h.run clocks (List.replicate n .advanceBlock)).custody.log.head < u64Max →
        (h.run clocks (List.replicate n .advanceBlock)).custody.log.head = h.custody.log.head + n) ∧
      ((∃ h₁ : Harness, h = (h₁.pumpIndexer clocks).2) →
        ∃ h₁ : Harness, h.run clocks (List.replicate n .advanceBlock) = (h₁.pumpIndexer clocks).2) := by
  induction n generalizing h with
  | zero => exact ⟨rfl, rfl, rfl, fun _ => rfl, id⟩
  | succ n ih =>
      obtain ⟨hstalled, hresolved, hentries, hhead, hpumped⟩ := ih (h.advanceBlock clocks)
      have hcustody : (h.advanceBlock clocks).custody =
          { h.custody with log := h.custody.log.advanceBlock } := custody_pumpIndexer
      rw [List.replicate_succ]
      refine ⟨hstalled.trans indexerStalled_pumpIndexer, hresolved.trans (by rw [hcustody]),
        hentries.trans (by rw [hcustody]; rfl), fun hlt => ?_, fun _ => hpumped ⟨_, rfl⟩⟩
      have hlast := hhead hlt
      have hnext : (h.advanceBlock clocks).custody.log.head = saturatingAdd h.custody.log.head 1 := by
        rw [hcustody]
        rfl
      have hbelow : saturatingAdd h.custody.log.head 1 < u64Max := by
        rw [← hnext]
        exact Nat.lt_of_le_of_lt (Nat.le_add_right _ n) (hlast ▸ hlt)
      refine hlast.trans ?_
      rw [hnext]
      unfold saturatingAdd at hbelow ⊢
      omega

-- ============================================================================
-- What a retry does
-- ============================================================================

/-- Custody answers the nonce of every request sent again, and the engine hears everything. -/
theorem Reached.retried (hreached : Reached config clocks Undisturbed h) (hmono : Monotone clocks.engine)
    (hlive : h.indexerStalled = false)
    (hblocks : (h.run clocks (retry rs config.confirmations)).custody.log.head < u64Max) :
    (∀ r ∈ rs, h.engine.Awaits (Nonce.of r) →
      ∃ status, (h.run clocks (retry rs config.confirmations)).custody.resolved (Nonce.of r) = some status) ∧
      (h.run clocks (retry rs config.confirmations)).indexer.backlog
        (h.run clocks (retry rs config.confirmations)).custody.log = [] := by
  have hok : ∀ h op, Undisturbed h op → Undisturbed h op := fun _ _ => id
  have hsent : Retriable config clocks h.submitPending [] :=
    (hreached.perform .submitPending ⟨trivial, trivial⟩).retriable hmono hok
  have hincluded : Retriable config clocks (h.run clocks (retry rs 0)) [] :=
    (hreached.run _ (lets_of_forall undisturbed_retry)).retriable hmono hok
  have hfinal : Retriable config clocks (h.run clocks (retry rs config.confirmations)) [] :=
    (hreached.run _ (lets_of_forall undisturbed_retry)).retriable hmono hok
  rw [run_retry] at hblocks hincluded hfinal ⊢
  obtain ⟨hempty, hstalled, hintents⟩ := submitted (h := h)
  obtain ⟨hstalled', -, hfound⟩ := resubmitted clocks rs h.submitPending
  generalize h.submitPending.run clocks (rs.map .resubmit) = x at *
  have hincluded : Retriable config clocks (x.includeAll clocks).2 [] := hincluded
  have hstalled'' : (x.includeAll clocks).2.indexerStalled = x.indexerStalled :=
    indexerStalled_pumpIndexer
  obtain ⟨hlast, hresolved, hentries, hhead, hpumped⟩ := advanced config.confirmations (x.includeAll clocks).2
  constructor
  · intro r hr hawaits
    have hbefore := hreached.retriable hmono hok
    obtain ⟨b, hb, hnonce⟩ := hbefore.agrees.awaited hbefore.timed.sane hawaits
    have hkept : b ∈ h.submitPending.inFlight := by
      rcases hsent.kept b (hintents ▸ hb) with hmem | hmem
      · rw [hempty] at hmem
        cases hmem
      · exact hmem
    obtain ⟨status, hstatus⟩ :=
      resolved_included clocks (hfound r hr b (hsent.agrees.found hkept hnonce))
    exact ⟨status, by rw [hresolved, ← hnonce]; exact hstatus⟩
  · obtain ⟨h₁, hpump⟩ := hpumped ⟨_, rfl⟩
    rw [hpump] at hfinal hlast hentries hhead hblocks ⊢
    refine backlog_pumpIndexer hfinal.answering.tracks ?_ fun y hy => ?_
    · rw [hlast, hstalled'', hstalled', hstalled, hlive]
    · have hbelow := hincluded.answering.tracks.below y (hentries ▸ hy)
      rw [hfinal.confirmations, hhead hblocks]
      omega

/-- Whatever was lost: once the bundles of `rs` are sent again and what that logs is
    confirmed, each request of `rs` that was settling has the answer custody gave. -/
theorem retry_answers {record : Request} {nonce : Nonce} {deadline : Nat}
    (hreached : Reached config clocks Undisturbed h) (hmono : Monotone clocks.engine)
    (hlive : h.indexerStalled = false) (hr : r ∈ rs) (hrecord : h.engine.ledger.request r = some record)
    (hsettling : record.state = .settling nonce deadline)
    (hblocks : (h.run clocks (retry rs config.confirmations)).custody.log.head < u64Max)
    (hhashes : (h.run clocks (retry rs config.confirmations)).custody.log.nextTx < u64Max) :
    ∃ record', (h.run clocks (retry rs config.confirmations)).engine.ledger.request r = some record' ∧
      ((h.run clocks (retry rs config.confirmations)).custody.status nonce = .settled ∧
          record'.state = .escrowed ∨
        (h.run clocks (retry rs config.confirmations)).custody.status nonce = .reverted ∧
          record'.state = .settlementFailed) := by
  have hauction := Ledger.market_auctions hrecord
  have hbefore := hreached.retriable hmono fun _ _ => id
  obtain rfl : nonce = Nonce.of r :=
    hbefore.timed.sane.healthy.coherent.nonce r record.auction nonce deadline hauction hsettling
  obtain ⟨hanswered, hnone⟩ := hreached.retried hmono hlive hblocks
  obtain ⟨status, hstatus⟩ := hanswered r hr ⟨r, record.auction, deadline, hauction, hsettling⟩
  have hafter : Retriable config clocks (h.run clocks (retry rs config.confirmations)) [] :=
    (hreached.run _ (lets_of_forall undisturbed_retry)).retriable hmono fun _ _ => id
  generalize h.run clocks (retry rs config.confirmations) = h' at *
  obtain ⟨b, hb, hnonce⟩ := hafter.agrees.known _ _ hstatus
  obtain rfl := Bundle.basket_eq hnonce
  cases hafter.agrees.fate b hb with
  | @awaits a deadline' hauction' hstate =>
      have hmem := hafter.answering.coming hhashes _ status hstatus ⟨_, a, deadline', hauction', hstate⟩
      rw [coming, hnone] at hmem
      cases hmem
  | @answered a status' hauction' hstate _ hterminal hresolved =>
      obtain ⟨record', hrecord', rfl⟩ := Ledger.request_of_market hauction'
      refine ⟨record', hrecord', ?_⟩
      rw [Bundle.nonce_basket, CustodyLedger.status_of_resolved hresolved]
      cases status' with
      | settled => exact .inl ⟨rfl, hstate⟩
      | reverted => exact .inr ⟨rfl, hstate⟩
      | unknown => cases hterminal
      | pending => cases hterminal

/-- A trade whose submission was lost. -/
theorem reached_lost : Reached Config.small (stopped 5) Undisturbed (small.run (stopped 5) (tradeOps.take 9)) :=
  reached_small.run (tradeOps.take 9)
    (by simp [tradeOps, Lets, Undisturbed, Straight, Announced, Command.isGateway])

theorem settling_lost : ((small.run (stopped 5) (tradeOps.take 9)).engine.ledger.request ⟨0, 0⟩).map
    Request.state = some (.settling ⟨0, 0⟩ 55) := by
  decide +kernel

theorem retry_answers_lost : ∃ record',
    ((small.run (stopped 5) (tradeOps.take 9)).run (stopped 5)
        (retry [⟨0, 0⟩] Config.small.confirmations)).engine.ledger.request ⟨0, 0⟩ = some record' ∧
      record'.state = .escrowed := by
  obtain ⟨record, hrecord, hstate⟩ := Option.map_eq_some_iff.mp settling_lost
  have hmem : (⟨0, 0⟩ : ReqIdx) ∈ [(⟨0, 0⟩ : ReqIdx)] := List.mem_singleton_self _
  obtain ⟨record', hrecord', hanswer⟩ := retry_answers reached_lost monotone_const (by decide +kernel)
    hmem hrecord hstate (by decide +kernel) (by decide +kernel)
  have hstatus : ((small.run (stopped 5) (tradeOps.take 9)).run (stopped 5)
      (retry [⟨0, 0⟩] Config.small.confirmations)).custody.status ⟨0, 0⟩ = .settled := by
    decide +kernel
  rcases hanswer with ⟨-, hescrowed⟩ | ⟨hreverted, -⟩
  · exact ⟨record', hrecord', hescrowed⟩
  · rw [hstatus] at hreverted
    cases hreverted

-- ============================================================================
-- What is committed
-- ============================================================================

/-- The capital an account has committed is what its bundles that await an answer take from it. -/
theorem Agrees.committed_eq (hagrees : Agrees h commands) (hsane : h.engine.Sane)
    (ht : h.engine.market.totals account = some t) :
    t.committed =
      (h.intents.map fun b => if h.engine.market.awaits b then b.due account else 0).sum := by
  have hpledged : ∀ b ∈ h.intents, (if h.engine.market.awaits b then b.due account else 0) =
      h.engine.market.pledged b.basket account := by
    intro b hb
    split
    next hawaits => exact (hagrees.pledged hb hawaits account).symm
    next hnot =>
      have hzero : h.engine.ledger.book.sum (Claim.committedOn b.basket account) = 0 := by
        refine Ledger.book_sum_eq_zero fun c k hk => Market.committedOn_eq_zero fun hs => hnot ?_
        obtain ⟨x, deadline, hx, hstate⟩ := hsane.settles hk hs
        exact Market.awaits_iff.mpr ⟨x, deadline, hx, hstate⟩
      exact hzero.symm
  rw [List.map_congr_left hpledged, sum_pledged, hsane.healthy.intact.balanced.committed account t ht]
  -- a claim is committed to the request of one bundle, or of none
  have hclaim : ∀ c k, h.engine.ledger.book.claims c = some k → Claim.committedBy account k =
      (h.intents.map fun b => k.committedOn b.basket account).sum := by
    intro c k hk
    cases hs : k.status with
    | reserved x =>
        have hzero : (h.intents.map fun b => k.committedOn b.basket account).sum = 0 := by
          refine List.sum_eq_zero fun n hn => ?_
          obtain ⟨b, -, rfl⟩ := List.mem_map.mp hn
          exact Market.committedOn_eq_zero (by simp [hs])
        rw [hzero, Claim.committedBy, hs]
    | committed r =>
        obtain ⟨x, deadline, hx, hstate⟩ := hsane.settles hk hs
        obtain ⟨b, hb, hnonce⟩ := hagrees.awaited hsane ⟨r, x, deadline, hx, hstate⟩
        obtain rfl := Bundle.basket_eq hnonce
        rw [← List.sum_map_ite_key hagrees.unique hb (Claim.committedBy account k)]
        refine congrArg List.sum (List.map_congr_left fun y _ => ?_)
        by_cases hkey : y.nonce = b.nonce
        · have hbasket : y.basket = b.basket := Bundle.basket_eq (hkey.trans b.nonce_basket.symm)
          rw [if_pos hkey, Claim.committedBy, Claim.committedOn, hs, hbasket]
          simp
        · rw [if_neg hkey]
          refine (Market.committedOn_eq_zero ?_).symm
          rw [hs]
          intro heq
          exact hkey (congrArg Nonce.of (ClaimStatus.committed.inj heq)).symm
  exact Ledger.sum_book_congr hclaim

/-- In every harness reached by gateway commands, the capital an account has committed is, to
    the last unit, what the bundles that await an answer take from it. -/
theorem committed_exact (hreached : Reached config clocks Straight h) (hmono : Monotone clocks.engine)
    (ht : h.engine.market.totals account = some t) :
    t.committed =
      (h.intents.map fun b => if h.engine.market.awaits b then b.due account else 0).sum := by
  obtain ⟨htimed, hagrees⟩ := hreached.agrees hmono fun _ _ => id
  exact hagrees.committed_eq htimed.sane ht

/-- A trade whose submission was lost: the maker's capital is committed to it. -/
theorem committed_exact_lost :
    (small.run (stopped 5) (tradeOps.take 9)).intents.length = 1 ∧
      ∀ t, (small.run (stopped 5) (tradeOps.take 9)).engine.market.totals 1 = some t →
        t.committed = ((small.run (stopped 5) (tradeOps.take 9)).intents.map fun b =>
          if (small.run (stopped 5) (tradeOps.take 9)).engine.market.awaits b then b.due 1 else 0).sum := by
  have hreached : Reached Config.small (stopped 5) Straight (small.run (stopped 5) (tradeOps.take 9)) :=
    reached_small.run (tradeOps.take 9) (by simp [tradeOps, Lets, Straight, Command.isGateway])
  exact ⟨by decide +kernel, fun t ht => committed_exact hreached monotone_const ht⟩

-- ============================================================================
-- What a retry releases
-- ============================================================================

/-- Whatever the wires deliver, no settlement starts. -/
theorem Move.awaits (ht : Timed config clocks h) (nonce : Nonce)
    (hmove : Move clocks ok op h commands h' commands') (hop : ∀ command, op ≠ .apply command)
    (hcommands : ∀ x ∈ commands, x.isGateway = false) :
    (∀ x ∈ commands', x.isGateway = false) ∧ (h'.engine.Awaits nonce → h.engine.Awaits nonce) := by
  cases hmove with
  | applied heq => exact absurd heq (hop _)
  | polled => exact ⟨hcommands, (ht.effect _).awaits_of rfl⟩
  | @delivered command commands =>
      obtain ⟨hcommand, hrest⟩ := List.forall_mem_cons.mp hcommands
      exact ⟨hrest, (ht.effect command).awaits_of hcommand⟩
  | drained =>
      refine ⟨fun x hx => ?_, id⟩
      obtain ⟨entry, -, rfl⟩ := Indexer.mem_of_drain hx
      unfold Indexer.translate
      split <;> rfl
  | _ => exact ⟨hcommands, id⟩

theorem awaits_of_run {ops : List HarnessOp} {nonce : Nonce} (ht : Timed config clocks h)
    (hmono : Monotone clocks.engine) (hops : ∀ op ∈ ops, ∀ command, op ≠ .apply command)
    (hawaits : (h.run clocks ops).engine.Awaits nonce) : h.engine.Awaits nonce := by
  induction ops generalizing h with
  | nil => exact hawaits
  | cons op ops ih =>
      obtain ⟨hop, hrest⟩ := List.forall_mem_cons.mp hops
      have hmoves : Moves clocks (fun _ _ => True) op h [] (h.perform clocks op) [] := moves_perform trivial
      obtain ⟨ht', -, hback⟩ : Timed config clocks (h.perform clocks op) ∧
          (∀ x ∈ ([] : List Command), x.isGateway = false) ∧
            ((h.perform clocks op).engine.Awaits nonce → h.engine.Awaits nonce) := by
        refine hmoves.induct (P := fun h' commands' => Timed config clocks h' ∧
          (∀ x ∈ commands', x.isGateway = false) ∧
            (h'.engine.Awaits nonce → h.engine.Awaits nonce)) ?_ ⟨ht, by simp, id⟩
        rintro h₁ commands₁ h₂ commands₂ hmove ⟨ht₁, hcommands, hback⟩
        obtain ⟨hcommands', hstep⟩ := hmove.awaits ht₁ nonce hop hcommands
        exact ⟨ht₁.move hmono hmove, hcommands', fun hawaits => hback (hstep hawaits)⟩
      exact hback (ih ht' hrest hawaits)

/-- Once the bundle of every settling request is sent again and what that logs is confirmed,
    nothing settles and no account has any capital committed. -/
theorem retry_releases (hreached : Reached config clocks Undisturbed h) (hmono : Monotone clocks.engine)
    (hlive : h.indexerStalled = false)
    (hall : ∀ r record nonce deadline, h.engine.ledger.request r = some record →
      record.state = .settling nonce deadline → r ∈ rs)
    (hblocks : (h.run clocks (retry rs config.confirmations)).custody.log.head < u64Max)
    (hhashes : (h.run clocks (retry rs config.confirmations)).custody.log.nextTx < u64Max) :
    (∀ r record nonce deadline,
        (h.run clocks (retry rs config.confirmations)).engine.ledger.request r = some record →
          record.state ≠ .settling nonce deadline) ∧
      ∀ a t, (h.run clocks (retry rs config.confirmations)).engine.market.totals a = some t →
        t.committed = 0 := by
  obtain ⟨hanswered, hnone⟩ := hreached.retried hmono hlive hblocks
  have hbefore := hreached.retriable hmono fun _ _ => id
  have hafter : Retriable config clocks (h.run clocks (retry rs config.confirmations)) [] :=
    (hreached.run _ (lets_of_forall undisturbed_retry)).retriable hmono fun _ _ => id
  have hquiet : ∀ op ∈ retry rs config.confirmations, ∀ command, op ≠ .apply command := by
    rintro op hop command rfl
    simp [retry] at hop
  have hstill : ∀ nonce,
      ¬ (h.run clocks (retry rs config.confirmations)).engine.Awaits nonce := by
    intro nonce hawaits
    have hearlier := awaits_of_run hbefore.timed hmono hquiet hawaits
    obtain ⟨r, a, deadline, ha, hstate⟩ := hearlier
    obtain ⟨record, hrecord, rfl⟩ := Ledger.request_of_market ha
    obtain rfl : nonce = Nonce.of r :=
      hbefore.timed.sane.healthy.coherent.nonce r record.auction nonce deadline ha hstate
    obtain ⟨status, hstatus⟩ :=
      hanswered r (hall r record _ deadline hrecord hstate) ⟨r, record.auction, deadline, ha, hstate⟩
    have hmem := hafter.answering.coming hhashes _ status hstatus hawaits
    rw [coming, hnone] at hmem
    cases hmem
  refine ⟨fun r record nonce deadline hrecord hstate => ?_, fun a t ht => ?_⟩
  · exact hstill nonce ⟨r, record.auction, deadline, Ledger.market_auctions hrecord, hstate⟩
  · rw [hafter.agrees.committed_eq hafter.timed.sane ht]
    refine List.sum_eq_zero fun n hn => ?_
    obtain ⟨b, -, rfl⟩ := List.mem_map.mp hn
    rw [if_neg]
    intro hawaits
    obtain ⟨a, deadline, ha, hstate⟩ := Market.awaits_iff.mp hawaits
    exact hstill b.nonce ⟨b.basket, a, deadline, ha, hstate⟩

theorem retry_releases_lost :
    (((small.run (stopped 5) (tradeOps.take 9)).run (stopped 5)
      (retry [⟨0, 0⟩] Config.small.confirmations)).engine.market.totals 0).map Totals.committed = some 0 := by
  have hall : ∀ v ∈ (small.run (stopped 5) (tradeOps.take 9)).engine.ledger.requests.iter,
      v.1 ∈ [(⟨0, 0⟩ : ReqIdx)] := by
    decide +kernel
  have hopened : (((small.run (stopped 5) (tradeOps.take 9)).run (stopped 5)
      (retry [⟨0, 0⟩] Config.small.confirmations)).engine.market.totals 0).isSome = true := by
    decide +kernel
  obtain ⟨t, ht⟩ := Option.isSome_iff_exists.mp hopened
  have hreleased := (retry_releases reached_lost monotone_const (by decide +kernel)
    (fun r record _ _ hrecord _ => hall (r, record) (Slab.mem_iter.mpr hrecord))
    (by decide +kernel) (by decide +kernel)).2
  rw [ht, Option.map_some, hreleased 0 t ht]

end Harness

end RfqSettlement
