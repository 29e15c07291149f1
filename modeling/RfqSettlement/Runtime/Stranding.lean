/-
  RfqSettlement.Runtime.Stranding

  No settlement custody has answered is left waiting, unless a reorg took the answer
  out of the log.

  An answer is given once and announced once: a bundle whose nonce is answered bounces
  and announces nothing.  So what moves a request out of `Settling` is the one entry of
  the log, and `Answering` follows it from the inclusion to the engine.
-/

import RfqSettlement.Chain.Announcing
import RfqSettlement.Runtime.Custodial

namespace RfqSettlement

-- ============================================================================
-- The request behind a nonce
-- ============================================================================

namespace Engine

variable {e : Engine} {input : Input} {nonce : Nonce} {status : TxStatus}

/-- The request of `nonce` was accepted. -/
def Orders (e : Engine) (nonce : Nonce) : Prop :=
  ∃ r a, nonce = Nonce.of r ∧ e.market.auctions r = some a ∧ a.state ≠ .opened

/-- The request of `nonce` is settling. -/
def Awaits (e : Engine) (nonce : Nonce) : Prop :=
  ∃ r a deadline, e.market.auctions r = some a ∧ a.state = .settling nonce deadline

/-- What is committed is committed to a request that settles under its own nonce. -/
theorem Sane.settles {c : ResIdx} {k : Claim} {r : ReqIdx} (h : e.Sane)
    (hk : e.market.claims c = some k) (hs : k.status = .committed r) :
    ∃ a deadline, e.market.auctions r = some a ∧ a.state = .settling (Nonce.of r) deadline := by
  obtain ⟨a, ha, ⟨nonce, deadline, hstate⟩ | ⟨hnever, -⟩⟩ := h.healthy.coherent.committed c k r hk hs
  · rw [h.healthy.coherent.nonce r a nonce deadline ha hstate] at hstate
    exact ⟨a, deadline, ha, hstate⟩
  · cases hnever

theorem Sane.steps_step (h : e.Sane) (input : Input) :
    ∃ scope, (e.step input).Sane ∧ Market.Steps input.now scope e.market (e.step input).market := by
  obtain ⟨scope, -, hadv⟩ := h.apply input.command input.now (.withCapacity input.capacity)
  exact ⟨scope, hadv.sane, hadv.steps⟩

theorem Sane.orders_step (h : e.Sane) (horders : e.Orders nonce) : (e.step input).Orders nonce := by
  obtain ⟨scope, -, hsteps⟩ := h.steps_step input
  obtain ⟨r, a, hnonce, ha, hne⟩ := horders
  obtain ⟨st, hst, rfl | hmoves⟩ := hsteps.auction ha
  · exact ⟨r, _, hnonce, hst, hne⟩
  · refine ⟨r, _, hnonce, hst, ?_⟩
    show st ≠ .opened
    generalize a.state = before at hmoves
    cases hmoves with
    | settle => simp
    | reject => simp
    | resolve _ hst => rcases hst with rfl | rfl <;> simp

/-- What settles after some steps settled before, or was opened and filled. -/
theorem awaits_of_steps {e' : Engine} {scope : Scope} {now deadline : Nat} {r : ReqIdx} {a' : Auction}
    (hsteps : Market.Steps now scope e.market e'.market) (ha' : e'.market.auctions r = some a')
    (hsettling : a'.state = .settling nonce deadline) :
    e.Awaits nonce ∨ scope = .filling r ∧ ∃ a, e.market.auctions r = some a ∧ a.state = .opened := by
  cases ha : e.market.auctions r with
  | none =>
      rw [(hsteps.auction_new ha ha').1] at hsettling
      cases hsettling
  | some a =>
      obtain ⟨st, hst, hmoved⟩ := hsteps.auction ha
      obtain rfl := Option.some.inj (ha'.symm.trans hst)
      have hsettling : st = .settling nonce deadline := hsettling
      rcases hmoved with rfl | hmoves
      · exact .inl ⟨r, a, deadline, ha, hsettling⟩
      · rw [hsettling] at hmoves
        generalize hbefore : a.state = before at hmoves
        cases hmoves with
        | settle hfilling => exact .inr ⟨hfilling, a, rfl, hbefore⟩
        | resolve _ hst => rcases hst with hst | hst <;> cases hst

/-- A request accepted before starts settling no more. -/
theorem Sane.awaits_of_step (h : e.Sane) (horders : e.Orders nonce)
    (hawaits : (e.step input).Awaits nonce) : e.Awaits nonce := by
  obtain ⟨scope, hsane, hsteps⟩ := h.steps_step input
  obtain ⟨r, a', deadline, ha', hsettling⟩ := hawaits
  rcases awaits_of_steps hsteps ha' hsettling with hbefore | ⟨-, a, ha, hopened⟩
  · exact hbefore
  · obtain ⟨r', x, hnonce, hx, hne⟩ := horders
    have hsame : Nonce.of r = Nonce.of r' :=
      (hsane.healthy.coherent.nonce r a' nonce deadline ha' hsettling).symm.trans hnonce
    obtain rfl := Nonce.of_injective hsame
    obtain rfl := Option.some.inj (ha.symm.trans hx)
    exact absurd hopened hne

/-- A terminal answer ends the wait. -/
theorem Sane.not_awaits_step (h : e.Sane) (hcommand : input.command = .pollSettlement nonce status)
    (hterminal : status.isTerminal = true) (hcap : MAX_LEGS + 1 ≤ input.capacity) :
    ¬ (e.step input).Awaits nonce := by
  have hn := h.normalised input.command input.now
  obtain ⟨bundles, heffect⟩ :
      ∃ bundles, Effect input.now e (e.step input) bundles (.pollSettlement nonce status) := by
    rw [step, answer, Engine.apply, hcommand]
    rw [hcommand] at hn
    exact ⟨_, Effect.lift hn (hn.sane.effect_pollSettlement hcap)⟩
  have hsane := (h.steps_step input).choose_spec.1
  rintro ⟨r, a, deadline, ha, hsettling⟩
  cases heffect with
  | still _ hauctions _ hanswer =>
      exact hanswer nonce status r a deadline rfl hterminal (hauctions ▸ ha) hsettling
  | traded hgateway => cases hgateway
  | @resolved r' _ _ _ hanswers =>
      have hnonce : Nonce.of r' = Nonce.of r :=
        hsane.healthy.coherent.nonce r a _ deadline ha hsettling
      obtain rfl := Nonce.of_injective hnonce
      obtain rfl := Option.some.inj (ha.symm.trans hanswers.resolved)
      cases status <;> cases hsettling

/-- Only a gateway's accept starts a settlement. -/
theorem Effect.awaits_of {e' : Engine} {bundles : List Bundle} {command : Command} {now : Nat}
    (heffect : Effect now e e' bundles command) (hcommand : command.isGateway = false)
    (hawaits : e'.Awaits nonce) : e.Awaits nonce := by
  obtain ⟨r, a', deadline, ha', hsettling⟩ := hawaits
  have hbefore : ∀ {scope : Scope}, Market.Steps now scope e.market e'.market →
      scope ≠ .filling r → e.Awaits nonce := fun hsteps hscope =>
    (awaits_of_steps hsteps ha' hsettling).elim id fun hfilled => absurd hfilled.1 hscope
  cases heffect with
  | still hsteps => exact hbefore (hsteps .calm) (by simp)
  | traded hgateway =>
      rw [hcommand] at hgateway
      cases hgateway
  | credited hsteps => exact hbefore hsteps (by simp)
  | accepted => cases hcommand
  | resolved _ hanswers => exact hbefore hanswers.steps (by simp)

/-- Whatever is handed over is an order of a request just accepted. -/
theorem Performs.orders {answer : Answer} {command : Command} {now capacity : Nat} {b : Bundle}
    (hp : Performs e now (.withCapacity capacity) command answer)
    (hb : b ∈ answer.2.2.events.filterMap bundleFrom) : answer.2.1.Orders b.nonce := by
  have hnone : answer.2.2.events.filterMap bundleFrom = [] → answer.2.1.Orders b.nonce := by
    intro hnil
    rw [hnil] at hb
    cases hb
  cases hp with
  | refused => exact hnone rfl
  | traded _ _ hcarried => exact hnone (bundles_of_quiet hcarried.quiet)
  | withdrawn _ hcarried => exact hnone (bundles_of_quiet hcarried.quiet)
  | registered => exact hnone rfl
  | @reported contract status record =>
      have hquiet : EventBuffer.Quiet (.withCapacity capacity)
          ((resolution contract status).foldl EventBuffer.push (.withCapacity capacity)) := by
        cases status with
        | final outcome => exact EventBuffer.quiet_push rfl
        | _ => exact .refl _
      exact hnone (bundles_of_quiet hquiet)
  | accepted hchecked haccepted =>
      have hone := bundles_of_accepted hchecked haccepted
      rw [done, hone, List.mem_singleton] at hb
      obtain ⟨deadline, hsettling⟩ := haccepted.settling
      exact ⟨_, _, by rw [hb]; rfl, hsettling, by simp⟩
  | resolved _ _ _ _ hres => exact hnone (bundles_of_quiet hres.carried.quiet)
  | @paid escrow contract record outcome _ _ hroom =>
      refine hnone ?_
      have hlt : (EventBuffer.withCapacity capacity).events.length <
          (EventBuffer.withCapacity capacity).capacity := by
        simpa [EventBuffer.headroom, Nat.succ_le_iff] using hroom
      rw [EventBuffer.push_of_room hlt]
      rfl

theorem Sane.orders_bundle {b : Bundle} (h : e.Sane)
    (hb : b ∈ (e.emits input).filterMap bundleFrom) : (e.step input).Orders b.nonce := by
  have hn := h.normalised input.command input.now
  exact (hn.sane.performs input.command input.now (.withCapacity input.capacity)).orders hb

end Engine

-- ============================================================================
-- The invariant
-- ============================================================================

namespace Harness

open CustodyLedger (Announces)

variable {config : Config} {clocks : Clocks} {ok : Harness → HarnessOp → Prop} {op : HarnessOp}
  {h h' : Harness} {commands commands' : List Command} {command : Command}

/-- What settles was ordered. -/
theorem Agrees.awaited {nonce : Nonce} (hagrees : Agrees h commands) (hsane : h.engine.Sane)
    (hawaits : h.engine.Awaits nonce) : ∃ b ∈ h.intents, b.nonce = nonce := by
  obtain ⟨r, a, deadline, ha, hsettling⟩ := hawaits
  rcases hagrees.origin r a ha with hopened | hrejected | ⟨b, hb, hnonce⟩
  · rw [hopened] at hsettling
    cases hsettling
  · rw [hrejected] at hsettling
    cases hsettling
  · exact ⟨b, hb, hnonce.trans (hsane.healthy.coherent.nonce r a nonce deadline ha hsettling).symm⟩

def isAnswer : ChainPayload → Bool
  | .settlementResolved .. => true
  | _ => false

/-- A reorg that takes no answer back the indexer has yet to deliver. -/
def KeepsAnswers (h : Harness) (block : Nat) : Prop :=
  ∀ x ∈ h.custody.log.entries, isAnswer x.payload = true → x.key ∉ h.indexer.delivered →
    x.block < block

/-- Bundles reach custody through the harness, and no reorg takes an answer back. -/
def Announced (h : Harness) : HarnessOp → Prop
  | .reorg block => Shallow h block ∧ KeepsAnswers h block
  | .custody op => op.carries = false
  | _ => True

/-- What custody answered is on its way to every request that waits for it. -/
structure Answering (h : Harness) (commands : List Command) : Prop where
  sane : h.engine.Sane
  tracks : h.indexer.Tracks h.custody.log
  ordered : ∀ b, b ∈ h.pending ∨ b ∈ h.inFlight ∨ b ∈ h.custody.pending → h.engine.Orders b.nonce
  resolved : ∀ nonce status, h.custody.resolved nonce = some status →
    status.isTerminal = true ∧ h.engine.Orders nonce
  coming : h.custody.log.nextTx < u64Max → ∀ nonce status, h.custody.resolved nonce = some status →
    h.engine.Awaits nonce → .pollSettlement nonce status ∈ h.coming commands

theorem answering_new (hnew : new config = .ok h) : Answering h [] := by
  obtain ⟨engine, hengine, rfl⟩ := new_eq_ok hnew
  have hsane := Engine.sane_new hengine
  exact ⟨hsane, Indexer.tracks_new _, by simp [start, CustodyLedger.new],
    by simp [start, CustodyLedger.new], by simp [start, CustodyLedger.new]⟩

/-- A command to the engine: one more heard. -/
theorem Answering.turn (ha : Answering h commands)
    (hengine : h'.engine = h.engine.step (h.input clocks command)) (hcustody : h'.custody = h.custody)
    (hindexer : h'.indexer = h.indexer) (hinFlight : h'.inFlight = h.inFlight)
    (hpending : h'.pending = h.pending ++ h.bundles clocks command)
    (hcoming : ∀ x ∈ h.coming commands, x = command ∨ x ∈ h'.coming commands') :
    Answering h' commands' := by
  have horders : ∀ {nonce}, h.engine.Orders nonce → h'.engine.Orders nonce :=
    fun ho => hengine ▸ ha.sane.orders_step ho
  constructor
  · obtain ⟨_, hsane, -⟩ := ha.sane.steps_step (h.input clocks command)
    exact hengine ▸ hsane
  · rw [hindexer, hcustody]
    exact ha.tracks
  · rw [hpending, hinFlight, hcustody]
    rintro b (hb | hb)
    · rcases List.mem_append.mp hb with hb | hb
      · exact horders (ha.ordered b (.inl hb))
      · exact hengine ▸ ha.sane.orders_bundle hb
    · exact horders (ha.ordered b (.inr hb))
  · rw [hcustody]
    exact fun nonce status hs => ⟨(ha.resolved nonce status hs).1, horders (ha.resolved nonce status hs).2⟩
  · rw [hcustody, hengine]
    intro hnext nonce status hs hawaits
    obtain ⟨hterminal, ho⟩ := ha.resolved nonce status hs
    have hmem := ha.coming hnext nonce status hs (ha.sane.awaits_of_step ho hawaits)
    rcases hcoming _ hmem with rfl | hmem
    · have hcap : MAX_LEGS + 1 ≤ eventCapacity := by decide
      exact absurd hawaits (ha.sane.not_awaits_step rfl hterminal hcap)
    · exact hmem

/-- A move of custody, the log or the indexer that loses no answer. -/
theorem Answering.chain (ha : Answering h commands) (hengine : h'.engine = h.engine)
    (htracks : h'.indexer.Tracks h'.custody.log)
    (hkept : ∀ b, b ∈ h'.pending ∨ b ∈ h'.inFlight ∨ b ∈ h'.custody.pending →
      b ∈ h.pending ∨ b ∈ h.inFlight ∨ b ∈ h.custody.pending)
    (hresolved : h'.custody.resolved = h.custody.resolved)
    (hnext : h'.custody.log.nextTx < u64Max → h.custody.log.nextTx < u64Max)
    (hcoming : ∀ nonce status, .pollSettlement nonce status ∈ h.coming commands →
      .pollSettlement nonce status ∈ h'.coming commands') : Answering h' commands' where
  sane := hengine ▸ ha.sane
  tracks := htracks
  ordered b hb := hengine ▸ ha.ordered b (hkept b hb)
  resolved := by
    rw [hresolved, hengine]
    exact ha.resolved
  coming := by
    rw [hresolved, hengine]
    intro hlt nonce status hs hawaits
    exact hcoming nonce status (ha.coming (hnext hlt) nonce status hs hawaits)

/-- An operation of custody that announces what it answers. -/
theorem Answering.announces (ha : Answering h commands) (hengine : h'.engine = h.engine)
    (hindexer : h'.indexer = h.indexer) (hpending : h'.pending = h.pending)
    (hinFlight : h'.inFlight = h.inFlight) (hann : Announces h.custody h'.custody) :
    Answering h' commands := by
  have hqueued : ∀ b ∈ h.custody.pending, h.engine.Orders b.nonce :=
    fun b hb => ha.ordered b (.inr (.inr hb))
  constructor
  · exact hengine ▸ ha.sane
  · exact hindexer ▸ ha.tracks.extends hann.log
  · rw [hpending, hinFlight, hengine]
    rintro b (hb | hb | hb)
    · exact ha.ordered b (.inl hb)
    · exact ha.ordered b (.inr (.inl hb))
    · exact hqueued b (hann.queued b hb)
  · rw [hengine]
    intro nonce status hs
    rcases hann.resolved nonce status hs with hs | ⟨hterminal, ⟨b, hb, rfl⟩, -⟩
    · exact ha.resolved nonce status hs
    · exact ⟨hterminal, hqueued b hb⟩
  · rw [hengine]
    intro hnext nonce status hs hawaits
    have hlt := Nat.lt_of_le_of_lt (hann.log.nextTx_le ha.tracks.hashes) hnext
    rw [Harness.coming, hindexer]
    rcases hann.resolved nonce status hs with hs | ⟨-, -, log, hbefore, hafter⟩
    · rcases List.mem_append.mp (ha.coming hlt nonce status hs hawaits) with hmem | hmem
      · exact List.mem_append_left _ hmem
      · exact List.mem_append_right _ ((ha.tracks.backlog_extends hann.log).subset hmem)
    · exact List.mem_append_right _ ((ha.tracks.extends hbefore).appended hafter hnext)

theorem isAnswer_of_translate {x : ChainEvent} {nonce : Nonce} {status : TxStatus}
    (hcommand : Indexer.translate x = .pollSettlement nonce status) : isAnswer x.payload = true := by
  unfold Indexer.translate at hcommand
  split at hcommand
  next heq => cases hcommand
  next heq => cases hcommand
  next heq => rw [heq, isAnswer]
  next heq => cases hcommand

/-- An answer the reorg keeps is still to come. -/
theorem mem_backlog_reorg {block : Nat} {nonce : Nonce} {status : TxStatus}
    (hkeeps : KeepsAnswers h block) (ht : h.indexer.Tracks h.custody.log)
    (hmem : .pollSettlement nonce status ∈ h.indexer.backlog h.custody.log) :
    .pollSettlement nonce status ∈ h.indexer.backlog (h.custody.log.reorg block) := by
  obtain ⟨x, hx, hcommand⟩ := List.mem_map.mp hmem
  refine List.mem_map.mpr ⟨x, ?_, hcommand⟩
  have hentry : x ∈ h.custody.log.entries := Feed.walk_sublist.subset hx
  have hbelow : x.block < block :=
    hkeeps x hentry (isAnswer_of_translate hcommand) (Feed.not_seen_of_walk hx)
  have hkept : x ∈ (h.custody.log.reorg block).entries :=
    List.mem_filter.mpr ⟨hentry, decide_eq_true hbelow⟩
  obtain ⟨lost, hlost⟩ := Indexer.reorg_prefix ht.sorted block
  rw [Indexer.waiting, ← hlost, Feed.fresh_append] at hx
  rcases List.mem_append.mp hx with hx | hx
  · exact hx
  · -- a key of what was kept is not fresh in what was lost
    refine absurd ?_ (Feed.not_seen_of_walk hx)
    exact List.mem_append_left _ (List.mem_map_of_mem hkept)

theorem Answering.move (ha : Answering h commands)
    (hmove : Move clocks ok op h commands h' commands')
    (hok : ∀ h op, ok h op → Announced h op) : Answering h' commands' := by
  have hlog : ∀ {h' : Harness}, h'.engine = h.engine → h'.pending = h.pending →
      h'.inFlight = h.inFlight → h'.indexer = h.indexer → Announces h.custody h'.custody →
        Answering h' commands := fun hengine hpending hinFlight hindexer hann =>
    ha.announces hengine hindexer hpending hinFlight hann
  have hledger : ∀ ledgerOp : CustodyLedger.LedgerOp, Announces h.custody (ledgerOp.apply h.custody) :=
    fun ledgerOp => show Announces h.custody (h.custody.fire [ledgerOp]) from CustodyLedger.announces_fire
  cases hmove with
  | applied => exact ha.turn rfl rfl rfl rfl rfl fun x hx => .inr hx
  | polled => exact ha.turn rfl rfl rfl rfl rfl fun x hx => .inr hx
  | @delivered command commands =>
      refine ha.turn rfl rfl rfl rfl rfl fun x hx => ?_
      rcases List.mem_append.mp hx with hx | hx
      · exact (List.mem_cons.mp hx).imp_right fun hx => List.mem_append_left _ hx
      · exact .inr (List.mem_append_right _ hx)
  | drained =>
      obtain ⟨htracks, hbacklog⟩ := ha.tracks.drain
      refine ha.chain rfl htracks (fun _ hb => hb) rfl id fun nonce status hmem => ?_
      have hmem : .pollSettlement nonce status ∈ h.indexer.backlog h.custody.log := by
        simpa [Harness.coming] using hmem
      rw [hbacklog] at hmem
      exact hmem
  | @deposited account amount => exact hlog rfl rfl rfl rfl (hledger (.deposit account amount))
  | @requested account amount =>
      exact hlog rfl rfl rfl rfl (hledger (.requestWithdrawal account amount (clocks.chain h.reads)))
  | @executed account =>
      exact hlog rfl rfl rfl rfl (hledger (.executeWithdrawal account (clocks.chain h.reads)))
  | @sent bundle pending hop hpending =>
      refine ha.chain rfl ha.tracks ?_ rfl id fun _ _ hmem => hmem
      rintro b (hb | hb | hb)
      · exact .inl (by rw [hpending]; exact List.mem_cons_of_mem _ hb)
      · rcases List.mem_append.mp hb with hb | hb
        · exact .inr (.inl hb)
        · exact .inl (by rw [hpending, List.mem_singleton.mp hb]; exact List.mem_cons_self)
      · rcases List.mem_append.mp hb with hb | hb
        · exact .inr (.inr hb)
        · exact .inl (by rw [hpending, List.mem_singleton.mp hb]; exact List.mem_cons_self)
  | @resent request bundle hop hkept =>
      refine ha.chain rfl ha.tracks ?_ rfl id fun _ _ hmem => hmem
      rintro b (hb | hb | hb)
      · exact .inl hb
      · exact .inr (.inl hb)
      · rcases List.mem_append.mp hb with hb | hb
        · exact .inr (.inr hb)
        · exact .inr (.inl (List.mem_singleton.mp hb ▸ hkept))
  | lost =>
      have hdrop : Announces h.custody (h.custody.perform .dropNextSubmission) :=
        CustodyLedger.announces_perform rfl
      exact hlog rfl rfl rfl rfl hdrop
  | included => exact hlog rfl rfl rfl rfl CustodyLedger.announces_includeNext
  | @paid intent payouts =>
      refine hlog rfl rfl rfl rfl ?_
      cases intent with
      | settleIntent escrow contract outcome => exact hledger (.settleEscrow escrow contract outcome)
      | _ => exact .refl _
  | @logged payload =>
      have hgrown : h.custody.log.Extends (fun _ => true) (h.custody.log.append payload) :=
        ChainLog.extends_append _ rfl
      refine ha.chain rfl ha.tracks.append (fun _ hb => hb) rfl
        (Nat.lt_of_le_of_lt (hgrown.nextTx_le ha.tracks.hashes)) fun _ _ hmem => ?_
      exact (ha.tracks.backlog_extends hgrown).subset hmem
  | mined =>
      refine ha.chain rfl ha.tracks.advanceBlock (fun _ hb => hb) rfl id fun _ _ hmem => ?_
      rw [Harness.coming, Indexer.backlog_congr rfl]
      exact hmem
  | stalled => exact ha.chain rfl ha.tracks (fun _ hb => hb) rfl id fun _ _ hmem => hmem
  | resumed => exact ha.chain rfl ha.tracks (fun _ hb => hb) rfl id fun _ _ hmem => hmem
  | rewound => exact ha.chain rfl ha.tracks.rewind (fun _ hb => hb) rfl id fun _ _ hmem => hmem
  | forgot =>
      refine ha.chain rfl ha.tracks.forgetEverything (fun _ hb => hb) rfl id fun _ _ hmem => ?_
      exact Indexer.backlog_forgetEverything hmem
  | @reorged block hop hallowed =>
      have hann : Announced h (.reorg block) := hop ▸ hok h op hallowed
      obtain ⟨⟨hblock, hspared⟩, hkeeps⟩ := hann
      refine ha.chain rfl (ha.tracks.reorg (Nat.le_succ_of_le hblock) hspared).1 (fun _ hb => hb) rfl id
        fun _ _ hmem => ?_
      exact mem_backlog_reorg hkeeps ha.tracks hmem
  | @handled custodyOp hop hallowed =>
      have hann : Announced h (.custody custodyOp) := hop ▸ hok h op hallowed
      exact hlog rfl rfl rfl rfl (CustodyLedger.announces_perform hann)

/-- The indexer runs and has delivered the whole log, and still a request waits for a nonce
    that custody has answered. -/
structure Stranded (h : Harness) : Prop where
  live : h.indexerStalled = false
  read : h.indexer.cursor = h.custody.log.entries.length
  confirmed : ∀ x ∈ h.custody.log.entries, x.block + h.indexer.confirmations ≤ h.custody.log.head
  waits : ∃ nonce r record deadline, (h.custody.status nonce).isTerminal = true ∧
    h.engine.ledger.request r = some record ∧ record.state = .settling nonce deadline

/-- No harness is stranded that was reached by reorgs that spare what was delivered and every
    answer that was not, as long as transaction hashes last. -/
theorem never_stranded (hreached : Reached config clocks Announced h)
    (hhashes : h.custody.log.nextTx < u64Max) : ¬ h.Stranded := by
  have ha : Answering h [] := hreached.induct (P := Answering) (fun _ hnew => answering_new hnew)
    fun _ _ _ _ _ hmove ha => ha.move hmove fun _ _ => id
  rintro ⟨-, hend, -, nonce, r, record, deadline, hterminal, hrecord, hsettling⟩
  obtain ⟨status, hstatus⟩ : ∃ status, h.custody.resolved nonce = some status := by
    cases hresolved : h.custody.resolved nonce with
    | some status => exact ⟨status, rfl⟩
    | none =>
        rw [CustodyLedger.status, hresolved] at hterminal
        dsimp only at hterminal
        split at hterminal <;> cases hterminal
  have hawaits : h.engine.Awaits nonce :=
    ⟨r, record.auction, deadline, Ledger.market_auctions hrecord, hsettling⟩
  have hmem := ha.coming hhashes nonce status hstatus hawaits
  rw [Harness.coming, ha.tracks.backlog_eq_nil hend] at hmem
  cases hmem

/-- After a trade, a deposit that a reorg takes back. -/
def undoneOps : List HarnessOp := tradeOps ++ [.deposit 1 5, .reorg 2, .advanceBlock]

theorem never_stranded_undone :
    (small.run (stopped 5) undoneOps).custody.status ⟨0, 0⟩ = .settled ∧
      ¬ (small.run (stopped 5) undoneOps).Stranded := by
  have hlets : Lets (stopped 5) Announced small undoneOps := by
    have hreorg : Announced (small.run (stopped 5) (tradeOps ++ [.deposit 1 5])) (.reorg 2) := by
      unfold Announced Shallow KeepsAnswers
      decide +kernel
    simp only [undoneOps, tradeOps, List.cons_append, List.nil_append, Lets, Announced, true_and, and_true]
    exact hreorg
  exact ⟨by decide +kernel, never_stranded (reached_small.run undoneOps hlets) (by decide +kernel)⟩

/-- A trade up to its inclusion, at a block the indexer has not come to; the reorg that takes
    its answer back; and the bundle sent once more, which bounces. -/
def strandingOps : List HarnessOp :=
  tradeOps.dropLast ++ .reorg 1 :: [.resubmit ⟨0, 0⟩, .includeAll, .advanceBlock]

/-- A reorg above every horizon of its run, and what was answered is never heard. -/
theorem reorg_strands :
    ¬ ∀ (config : Config) (clocks : Clocks) (h : Harness) (before after : List HarnessOp) (block : Nat),
      Harness.new config = .ok h → block ≤ u64Max →
      (∀ op ∈ before ++ after, (∀ b, op ≠ .reorg b) ∧ ∀ c, op ≠ .custody c) →
      (∀ n ≤ before.length, ∀ horizon,
        (h.run clocks (before.take n)).indexer.horizon (h.run clocks (before.take n)).custody.log.head =
          some horizon → horizon < block) →
      ¬ (h.run clocks (before ++ .reorg block :: after)).Stranded := by
  intro hnever
  have hhorizon : ∀ n ≤ tradeOps.dropLast.length, ∀ horizon,
      (small.run (stopped 5) (tradeOps.dropLast.take n)).indexer.horizon
        (small.run (stopped 5) (tradeOps.dropLast.take n)).custody.log.head = some horizon →
          horizon < 1 := by
    have hall : ∀ n ≤ tradeOps.dropLast.length,
        ((small.run (stopped 5) (tradeOps.dropLast.take n)).indexer.horizon
          (small.run (stopped 5) (tradeOps.dropLast.take n)).custody.log.head).all
            (fun horizon => decide (horizon < 1)) = true := by
      decide +kernel
    intro n hn horizon hsome
    have hbelow := hall n hn
    rw [hsome] at hbelow
    simpa using hbelow
  refine hnever Config.small (stopped 5) small tradeOps.dropLast
    [.resubmit ⟨0, 0⟩, .includeAll, .advanceBlock] 1 rfl (by decide) (by simp [tradeOps]) hhorizon ?_
  have hsettling : ((small.run (stopped 5) strandingOps).engine.ledger.request ⟨0, 0⟩).map
      Request.state = some (.settling ⟨0, 0⟩ 55) := by
    decide +kernel
  obtain ⟨record, hrecord, hstate⟩ := Option.map_eq_some_iff.mp hsettling
  exact ⟨by decide +kernel, by decide +kernel, by decide +kernel, ⟨0, 0⟩, ⟨0, 0⟩, record, 55,
    by decide +kernel, hrecord, hstate⟩

end Harness

end RfqSettlement
