/-
  RfqSettlement.Runtime.Reporting

  Oracle and engine agree on resolution.

  A report takes the status the oracle has, goes into the log, and comes to the engine
  late, twice or not at all yet.  Statuses only climb, so along the way from the engine's
  status over the reports in flight to the oracle's every one is below the next
  (`Reporting`), and the engine's filter keeps the highest it has heard.
-/

import RfqSettlement.Chain.Oracle
import RfqSettlement.Core.Telling
import RfqSettlement.Runtime.Owing

namespace RfqSettlement

-- ============================================================================
-- One command
-- ============================================================================

/-- A contract's resolution. -/
def Event.resolves (contract : Nat) : Event → Bool
  | .contractResolved resolved _ => decide (resolved = contract)
  | _ => false

/-- Only a final report tells a resolution. -/
theorem Command.eq_of_pushes_resolved {command : Command} {contract : Nat} {outcome : Outcome}
    (h : command.pushes (.contractResolved contract outcome) = true) :
    command = .reportOracleStatus contract (.final outcome) := by
  cases command with
  | reportOracleStatus contract' status =>
      cases status with
      | final outcome' =>
          obtain ⟨rfl, rfl⟩ : contract = contract' ∧ outcome = outcome' := by simpa [pushes] using h
          rfl
      | _ => cases h
  | _ => cases h

theorem Indexer.payload_of_translate_report {x : ChainEvent} {contract : Nat} {status : OracleStatus}
    (h : translate x = .reportOracleStatus contract status) :
    x.payload = .oracleStatusReported contract status := by
  unfold translate at h
  split at h
  next heq =>
    cases h
  next heq =>
    cases h
    exact heq
  all_goals cases h

/-- Below the same status, the ranks decide. -/
theorem OracleStatus.le_of_rank_le {r s t : OracleStatus} (hs : s ≤ t) (hr : r ≤ t)
    (hrank : s.rank ≤ r.rank) : s ≤ r := by
  rcases hr with rfl | hlt
  · exact hs
  · rcases Nat.lt_or_eq_of_le hrank with hless | heq
    · exact .inr hless
    · -- below the top there is one status of a rank
      have htop : t.rank ≤ 2 := Engine.rank_le t
      cases s with
      | silent => exact silent_le r
      | inProgress =>
          cases r with
          | inProgress => exact le_refl _
          | silent => cases heq
          | final => cases heq
      | final =>
          have hfull : (2 : Nat) = r.rank := heq
          omega

namespace Engine

variable {e : Engine} {input : Input} {contract : Nat} {status : OracleStatus} {record : Contract}

/-- Whether the engine holds a final status for a contract, as a number. -/
def finals (e : Engine) (contract : Nat) : Nat :=
  ((e.ledger.contract contract).map fun record =>
    if record.oracleStatus.rank = 2 then 1 else 0).getD 0

theorem finals_le_one : e.finals contract ≤ 1 := by
  unfold finals
  cases e.ledger.contract contract with
  | none => exact Nat.zero_le 1
  | some record =>
      rw [Option.map_some, Option.getD_some]
      split
      · exact Nat.le_refl 1
      · exact Nat.zero_le 1

/-- A report is admitted if it moves the status forwards. -/
theorem Sane.report_accepted (h : e.Sane) (hrecord : e.ledger.contract contract = some record)
    (hcommand : input.command = .reportOracleStatus contract status)
    (hmay : record.mayReport status = true) (hcap : 0 < input.capacity) :
    Reported e input contract status := by
  refine ⟨hcommand, ?_⟩
  have hcontract := contract_normalised h (.reportOracleStatus contract status) input.now contract
  rw [hrecord] at hcontract
  have hroom : (EventBuffer.withCapacity input.capacity).headroom (resolution contract status).length =
      true := by
    have hone : (resolution contract status).length ≤ 1 := by cases status <;> simp [resolution]
    refine decide_eq_true ?_
    show 0 + _ ≤ input.capacity
    omega
  rw [answer, Engine.apply, hcommand, Engine.perform]
  simp only [reportOracleStatus, hcontract, hmay, hroom, Bool.not_true, Bool.false_eq_true, if_false]
  rfl

/-- A contract keeps its status, or a report moves it forwards. -/
theorem Sane.status_step (h : e.Sane) (hrecord : e.ledger.contract contract = some record)
    (hcap : 0 < input.capacity) :
    ∃ record', (e.step input).ledger.contract contract = some record' ∧
      (record' = record ∧ (∀ s, input.command = .reportOracleStatus contract s →
          s.rank ≤ record.oracleStatus.rank) ∨
        input.command = .reportOracleStatus contract record'.oracleStatus ∧
          record.oracleStatus < record'.oracleStatus) := by
  by_cases hreport : ∃ s, Reported e input contract s
  · obtain ⟨s, hreported⟩ := hreport
    obtain ⟨record₀, hrecord₀, hmay, hafter⟩ := h.reported hreported
    obtain rfl := Option.some.inj (hrecord.symm.trans hrecord₀)
    refine ⟨_, hafter, .inr ⟨?_, ?_⟩⟩
    · rw [Contract.oracleStatus_setOracleStatus]
      exact hreported.1
    · rw [Contract.oracleStatus_setOracleStatus]
      exact OracleStatus.mayReport_iff.mp hmay
  · have hnot : ∀ s, ¬ Reported e input contract s := fun s hs => hreport ⟨s, hs⟩
    refine ⟨record, h.contract_kept hrecord hnot, .inl ⟨rfl, fun s hcommand => ?_⟩⟩
    by_contra hlt
    refine hnot s (h.report_accepted hrecord hcommand ?_ hcap)
    exact Contract.mayReport_iff.mpr (Nat.not_le.mp hlt)

/-- A contract just registered is silent. -/
theorem Sane.status_new {record' : Contract} (h : e.Sane) (hnone : e.ledger.contract contract = none)
    (hrecord' : (e.step input).ledger.contract contract = some record') :
    record'.oracleStatus = .silent := by
  have hreports := h.reports_step input contract
  rw [hnone, hrecord'] at hreports
  cases hreports with
  | new => rfl

theorem Sane.finals_le (h : e.Sane) (input : Input) (contract : Nat) :
    e.finals contract ≤ (e.step input).finals contract := by
  have hreports := h.reports_step input contract
  unfold finals
  generalize e.ledger.contract contract = before at hreports
  generalize (e.step input).ledger.contract contract = after at hreports
  cases hreports with
  | same => exact Nat.le_refl _
  | new => exact Nat.zero_le _
  | @report record status hmay =>
      have hlt := Contract.mayReport_iff.mp hmay
      have htop := rank_le status
      simp only [Option.map_some, Option.getD_some, Contract.oracleStatus_setOracleStatus]
      rw [if_neg (by omega)]
      exact Nat.zero_le _

/-- A resolution is told when the status becomes final, and then once. -/
theorem Sane.resolutions_step (h : e.Sane) (input : Input) (contract : Nat) :
    (e.emits input).countP (Event.resolves contract) + e.finals contract ≤
      (e.step input).finals contract := by
  by_cases hresolves : ∃ outcome, input.command = .reportOracleStatus contract (.final outcome)
  · obtain ⟨outcome, hcommand⟩ := hresolves
    have hanswer : e.answer input = (e.normaliseAll (e.touchedAccounts input.command)
        input.now).reportOracleStatus contract (.final outcome) (.withCapacity input.capacity) := by
      rw [answer, Engine.apply, hcommand, Engine.perform]
    rcases reportOracleStatus_cases (e.normaliseAll (e.touchedAccounts input.command) input.now)
      contract (.final outcome) (.withCapacity input.capacity) with ⟨err, heq⟩ | ⟨_, -, -, heq⟩
    · have hnone : e.emits input = [] := by
        rw [emits, hanswer, heq]
        rfl
      rw [hnone, List.countP_nil, Nat.zero_add]
      exact h.finals_le input contract
    · have hreported : Reported e input contract (.final outcome) := ⟨hcommand, by rw [hanswer, heq]; rfl⟩
      obtain ⟨record, hrecord, hmay, hafter⟩ := h.reported hreported
      have hlt : record.oracleStatus.rank < 2 := Contract.mayReport_iff.mp hmay
      have hone : (e.emits input).length ≤ 1 := by
        rw [emits, hanswer, heq]
        show ((EventBuffer.withCapacity _).push _).events.length ≤ 1
        rw [EventBuffer.push]
        split
        · exact Nat.le_refl 1
        · exact Nat.zero_le 1
      have hcount := List.countP_le_length (p := Event.resolves contract) (l := e.emits input)
      simp only [finals, hrecord, hafter, Option.map_some, Option.getD_some,
        Contract.oracleStatus_setOracleStatus]
      rw [if_neg (by omega)]
      exact hcount.trans hone
  · have hadds : EventBuffer.Adds (Pushed input.command) (.withCapacity input.capacity)
        (e.answer input).2.2 := pushes_perform
    obtain ⟨added, hevents, hpushed⟩ := hadds
    have hnone : (e.emits input).countP (Event.resolves contract) = 0 := by
      rw [emits, hevents]
      refine List.countP_eq_zero.mpr fun event hevent hresolved => ?_
      have hpushes := hpushed event hevent
      cases event with
      | contractResolved resolved outcome =>
          obtain rfl : resolved = contract := of_decide_eq_true hresolved
          exact hresolves ⟨outcome, Command.eq_of_pushes_resolved hpushes⟩
      | _ => cases hresolved
    rw [hnone, Nat.zero_add]
    exact h.finals_le input contract

end Engine

-- ============================================================================
-- Reports on the way
-- ============================================================================

namespace Harness

variable {clocks : Clocks} {ok : Harness → HarnessOp → Prop} {op : HarnessOp} {h h' : Harness}
  {commands commands' : List Command} {command : Command} {last : Nat → OracleStatus}
  {contract : Nat} {status : OracleStatus}

/-- What a move logs is custody's own, or the request of its operation. -/
theorem Move.grown (hmove : Move clocks ok op h commands h' commands')
    (hforwards : ∀ block, op ≠ .reorg block) :
    ∃ added, h'.custody.log.entries = h.custody.log.entries ++ added ∧
      ∀ x ∈ added, x.payload.ofCustody = true ∨ requestOf op = some x.payload := by
  have hown : ∀ {Q : ChainPayload → Bool} {log : ChainLog}, h.custody.log.Extends Q log →
      (∀ p, Q p = true → p.ofCustody = true) →
        ∃ added, log.entries = h.custody.log.entries ++ added ∧
          ∀ x ∈ added, x.payload.ofCustody = true ∨ requestOf op = some x.payload := by
    intro Q log hlog hQ
    obtain ⟨added, hentries, hadded⟩ := hlog.entries
    exact ⟨added, hentries, fun x hx => .inl (hQ _ (hadded x hx))⟩
  have hledger : ∀ ledgerOp : CustodyLedger.LedgerOp,
      ∃ added, (ledgerOp.apply h.custody).log.entries = h.custody.log.entries ++ added ∧
        ∀ x ∈ added, x.payload.ofCustody = true ∨ requestOf op = some x.payload := fun ledgerOp =>
    hown (CustodyLedger.extends_apply ledgerOp) fun _ => ChainPayload.ofCustody_of_isBalance
  cases hmove with
  | @deposited account amount => exact hledger (.deposit account amount)
  | @requested account amount => exact hledger (.requestWithdrawal account amount (clocks.chain h.reads))
  | @executed account => exact hledger (.executeWithdrawal account (clocks.chain h.reads))
  | included => exact hown (CustodyLedger.extends_includeNext [] _) fun _ => id
  | @paid intent payouts =>
      cases intent with
      | settleIntent escrow contract outcome => exact hledger (.settleEscrow escrow contract outcome)
      | _ => exact ⟨[], (List.append_nil _).symm, by simp⟩
  | lost => exact hown (CustodyLedger.extends_perform .dropNextSubmission) fun _ => id
  | @logged payload hrequest hop =>
      refine ⟨[⟨h.custody.log.head, h.custody.log.nextTx, 0, payload⟩], rfl, fun x hx => .inr ?_⟩
      rw [List.mem_singleton.mp hx]
      exact hop
  | @reorged block hop => exact absurd hop (hforwards block)
  | @handled custodyOp => exact hown (CustodyLedger.extends_perform custodyOp) fun _ => id
  | _ => exact ⟨[], (List.append_nil _).symm, by simp⟩

/-- A report the engine has been or will be handed. -/
def Underway (h : Harness) (commands : List Command) (contract : Nat) (status : OracleStatus) : Prop :=
  .reportOracleStatus contract status ∈ commands ∨
    ∃ x ∈ h.custody.log.entries, x.payload = .oracleStatusReported contract status

/-- Every report, `last` being the last of each contract, is on its way to an engine that
    remembers the highest it was handed. -/
structure Reporting (last : Nat → OracleStatus) (h : Harness) (commands : List Command) : Prop where
  sane : h.engine.Sane
  underway : ∀ contract status, h.Underway commands contract status →
    (h.engine.ledger.contract contract).isSome = true ∧ status ≤ last contract
  stored : ∀ contract record, h.engine.ledger.contract contract = some record →
    record.oracleStatus ≤ last contract
  heard : ∀ contract status, .reportOracleStatus contract status ∈ h.commands →
    ∃ record, h.engine.ledger.contract contract = some record ∧ status ≤ record.oracleStatus
  logged : ∀ contract, last contract = .silent ∨
    ∃ x ∈ h.custody.log.entries, x.payload = .oracleStatusReported contract (last contract)
  resolved : ∀ contract, h.emitted.countP (Event.resolves contract) ≤ h.engine.finals contract

/-- The engine takes a command. -/
theorem Reporting.turn (hr : Reporting last h commands)
    (hengine : h'.engine = h.engine.step (h.input clocks command))
    (hemitted : h'.emitted = h.emitted ++ h.engine.emits (h.input clocks command))
    (hlog : h'.custody.log = h.custody.log)
    (hcommand : ∀ contract status, command = .reportOracleStatus contract status →
      (h.engine.ledger.contract contract).isSome = true ∧ status ≤ last contract)
    (hheard : ∀ x ∈ h'.commands, x ∈ h.commands ∨ x = command)
    (hrest : ∀ x ∈ commands', x ∈ commands) : Reporting last h' commands' := by
  have hcap : 0 < (h.input clocks command).capacity := show 0 < eventCapacity by decide
  have hkept : ∀ {contract record}, h.engine.ledger.contract contract = some record →
      ∃ record', h'.engine.ledger.contract contract = some record' ∧
        (record' = record ∧ (∀ s, command = .reportOracleStatus contract s →
            s.rank ≤ record.oracleStatus.rank) ∨
          command = .reportOracleStatus contract record'.oracleStatus ∧
            record.oracleStatus < record'.oracleStatus) := by
    intro contract record hrecord
    rw [hengine]
    exact hr.sane.status_step hrecord hcap
  refine ⟨?_, fun contract status hunder => ?_, fun contract record' hrecord' => ?_,
    fun contract status hmem => ?_, fun contract => by rw [hlog]; exact hr.logged contract, fun contract => ?_⟩
  · rw [hengine]
    exact hr.sane.sane_step _
  · have hbefore : h.Underway commands contract status := by
      rw [Underway, hlog] at hunder
      exact hunder.imp (hrest _) id
    obtain ⟨hsome, hle⟩ := hr.underway contract status hbefore
    obtain ⟨record, hrecord⟩ := Option.isSome_iff_exists.mp hsome
    obtain ⟨record', hrecord', -⟩ := hkept hrecord
    exact ⟨by rw [hrecord']; rfl, hle⟩
  · cases hbefore : h.engine.ledger.contract contract with
    | none =>
        rw [hengine] at hrecord'
        rw [hr.sane.status_new hbefore hrecord']
        exact OracleStatus.silent_le _
    | some record =>
        obtain ⟨record'', hrecord'', hsame | ⟨hreport, -⟩⟩ := hkept hbefore
        · obtain rfl := Option.some.inj (hrecord'.symm.trans hrecord'')
          rw [hsame.1]
          exact hr.stored contract record hbefore
        · obtain rfl := Option.some.inj (hrecord'.symm.trans hrecord'')
          exact (hcommand _ _ hreport).2
  · rcases hheard _ hmem with hold | rfl
    · obtain ⟨record, hrecord, hle⟩ := hr.heard contract status hold
      obtain ⟨record', hrecord', hsame | ⟨-, hlt⟩⟩ := hkept hrecord
      · exact ⟨record', hrecord', hsame.1 ▸ hle⟩
      · exact ⟨record', hrecord', hle.trans hlt.le⟩
    · obtain ⟨hsome, hle⟩ := hcommand _ _ rfl
      obtain ⟨record, hrecord⟩ := Option.isSome_iff_exists.mp hsome
      obtain ⟨record', hrecord', ⟨rfl, hlow⟩ | ⟨hreport, -⟩⟩ := hkept hrecord
      · -- a late report: the engine has heard of one as high
        exact ⟨_, hrecord', OracleStatus.le_of_rank_le hle (hr.stored _ _ hrecord) (hlow _ rfl)⟩
      · obtain rfl := (Command.reportOracleStatus.inj hreport).2
        exact ⟨record', hrecord', le_refl _⟩
  · have hone := hr.sane.resolutions_step (h.input clocks command) contract
    have hbefore := hr.resolved contract
    rw [hemitted, hengine, List.countP_append]
    omega

/-- The chain moves, and whatever the log has more is no report. -/
theorem Reporting.chain {added : List ChainEvent} (hr : Reporting last h commands)
    (hengine : h'.engine = h.engine) (hemitted : h'.emitted = h.emitted)
    (hheard : h'.commands = h.commands)
    (hentries : h'.custody.log.entries = h.custody.log.entries ++ added)
    (hadded : ∀ x ∈ added, ∀ contract status, x.payload ≠ .oracleStatusReported contract status)
    (hcommands : ∀ contract status, .reportOracleStatus contract status ∈ commands' →
      h.Underway commands contract status) : Reporting last h' commands' := by
  refine ⟨hengine ▸ hr.sane, fun contract status hunder => ?_, by rw [hengine]; exact hr.stored,
    by rw [hengine, hheard]; exact hr.heard, fun contract => ?_,
    by rw [hengine, hemitted]; exact hr.resolved⟩
  · rw [hengine]
    refine hr.underway contract status ?_
    rcases hunder with hmem | ⟨x, hx, hpayload⟩
    · exact hcommands _ _ hmem
    · rw [hentries] at hx
      rcases List.mem_append.mp hx with hold | hnew
      · exact .inr ⟨x, hold, hpayload⟩
      · exact absurd hpayload (hadded x hnew _ _)
  · refine (hr.logged contract).imp id ?_
    rintro ⟨x, hx, hpayload⟩
    exact ⟨x, hentries ▸ List.mem_append_left _ hx, hpayload⟩

/-- Every operation but a report and a reorg. -/
def Beside (_ : Harness) : HarnessOp → Prop
  | .apply (.reportOracleStatus ..) | .reportOracleStatus .. | .reorg _ => False
  | _ => True

theorem Beside.quiet (hbeside : Beside h op) {payload : ChainPayload}
    (hpayload : payload.ofCustody = true ∨ requestOf op = some payload) :
    payload ≠ .oracleStatusReported contract status := by
  rintro rfl
  rcases hpayload with hown | hop
  · cases hown
  · cases op with
    | reportOracleStatus => exact hbeside
    | _ => cases hop

theorem Reporting.move (hr : Reporting last h commands) (hbeside : Beside h op)
    (hmove : Move clocks ok op h commands h' commands') : Reporting last h' commands' := by
  have hquiet : ∀ {h' : Harness}, Move clocks ok op h commands h' commands →
      h'.engine = h.engine → h'.emitted = h.emitted → h'.commands = h.commands →
        Reporting last h' commands := by
    intro h' hmove hengine hemitted hheard
    obtain ⟨added, hentries, hadded⟩ := hmove.grown fun block hop => by
      subst hop
      exact hbeside
    exact hr.chain hengine hemitted hheard hentries
      (fun x hx _ _ => hbeside.quiet (hadded x hx)) fun _ _ => .inl
  cases hmove with
  | @applied command hop =>
      refine hr.turn rfl rfl rfl (fun contract status hcommand => ?_) (fun x hx => .inl hx) fun x hx => hx
      subst hop hcommand
      exact absurd hbeside id
  | polled =>
      exact hr.turn rfl rfl rfl (fun _ _ hcommand => by cases hcommand) (fun x hx => .inl hx) fun x hx => hx
  | @delivered command commands =>
      refine hr.turn rfl rfl rfl (fun contract status hcommand => ?_) (fun x hx => ?_)
        fun x hx => List.mem_cons_of_mem _ hx
      · exact hr.underway contract status (.inl (hcommand ▸ List.mem_cons_self))
      · exact (List.mem_append.mp hx).imp_right List.mem_singleton.mp
  | drained =>
      refine hr.chain rfl rfl rfl (List.append_nil _).symm (by simp) fun contract status hmem => .inr ?_
      obtain ⟨x, hx, htranslate⟩ := Indexer.mem_of_drain hmem
      exact ⟨x, hx, Indexer.payload_of_translate_report htranslate⟩
  | deposited hop hok => exact hquiet (.deposited hop hok) rfl rfl rfl
  | requested hop hok => exact hquiet (.requested hop hok) rfl rfl rfl
  | executed hop hok => exact hquiet (.executed hop hok) rfl rfl rfl
  | sent hop hpending => exact hquiet (.sent hop hpending) rfl rfl rfl
  | resent hop hkept => exact hquiet (.resent hop hkept) rfl rfl rfl
  | lost hop => exact hquiet (.lost hop) rfl rfl rfl
  | included hop hok hpending htx => exact hquiet (.included hop hok hpending htx) rfl rfl rfl
  | paid hop hok hpayouts => exact hquiet (.paid hop hok hpayouts) rfl rfl rfl
  | logged hrequest hop => exact hquiet (.logged hrequest hop) rfl rfl rfl
  | mined => exact hquiet .mined rfl rfl rfl
  | stalled hop hok hlag => exact hquiet (.stalled hop hok hlag) rfl rfl rfl
  | resumed => exact hquiet .resumed rfl rfl rfl
  | rewound => exact hquiet .rewound rfl rfl rfl
  | forgot hop hok => exact hquiet (.forgot hop hok) rfl rfl rfl
  | reorged hop hok => exact hquiet (.reorged hop hok) rfl rfl rfl
  | handled hop hok => exact hquiet (.handled hop hok) rfl rfl rfl

theorem Reporting.pumpIndexer (hr : Reporting last h []) : Reporting last (h.pumpIndexer clocks).2 [] := by
  have hmoves : Moves clocks Beside .pumpIndexer h [] (h.pumpIndexer clocks).2 [] := moves_pumpIndexer
  exact hmoves.induct (fun h _ _ _ hmove hr => hr.move (show h.Beside .pumpIndexer from trivial) hmove) hr

end Harness

-- ============================================================================
-- The oracle beside the harness
-- ============================================================================

/-- A harness, its oracle, and what was last reported of each contract. -/
structure Overseen where
  harness : Harness
  oracle : Oracle
  last : Nat → OracleStatus

/-- One operation on the oracle, a report of what it says, or one on the harness. -/
inductive OverseenOp where
  | oracle (op : OracleOp)
  | report (contract : Nat)
  | harness (op : HarnessOp)

namespace Overseen

variable {config : Config} {clocks : Clocks} {window authority contract : Nat} {o : Overseen}
  {op : OverseenOp} {ops : List OverseenOp} {outcome : Outcome}

/-- Nothing proposed, and nothing reported. -/
def start (harness : Harness) (window authority : Nat) : Overseen :=
  ⟨harness, .new window authority, fun _ => .silent⟩

def perform (clocks : Clocks) (o : Overseen) : OverseenOp → Overseen
  | .oracle op => { o with oracle := o.oracle.perform op }
  | .report contract =>
    let status := o.oracle.status contract
    { o with
      harness := o.harness.reportOracleStatus clocks contract status
      last := Function.update o.last contract status }
  | .harness op => { o with harness := o.harness.perform clocks op }

/-- Reports are of registered contracts, and of what the oracle says. -/
def Allowed (o : Overseen) : OverseenOp → Prop
  | .oracle _ => True
  | .report contract => (o.harness.engine.ledger.contract contract).isSome = true
  | .harness op => o.harness.Beside op

inductive Reached (config : Config) (clocks : Clocks) (window authority : Nat) : Overseen → Prop where
  | new {harness : Harness} (hnew : Harness.new config = .ok harness) :
      Reached config clocks window authority (start harness window authority)
  | perform {o : Overseen} (hreached : Reached config clocks window authority o) (op : OverseenOp)
      (hallowed : o.Allowed op) : Reached config clocks window authority (o.perform clocks op)

def run (clocks : Clocks) (o : Overseen) (ops : List OverseenOp) : Overseen := ops.foldl (perform clocks) o

/-- Operations each allowed where it comes. -/
def Lets (clocks : Clocks) : Overseen → List OverseenOp → Prop
  | _, [] => True
  | o, op :: ops => o.Allowed op ∧ Lets clocks (o.perform clocks op) ops

theorem Reached.run (ops : List OverseenOp) (hreached : Reached config clocks window authority o)
    (hlets : Lets clocks o ops) : Reached config clocks window authority (o.run clocks ops) := by
  induction ops generalizing o with
  | nil => exact hreached
  | cons op ops ih => exact ih (hreached.perform op hlets.1) hlets.2

-- ============================================================================
-- Agreement
-- ============================================================================

/-- Reports never run ahead of the oracle, and the engine never ahead of them. -/
structure Consistent (o : Overseen) : Prop where
  told : ∀ contract, o.last contract ≤ o.oracle.status contract
  reporting : o.harness.Reporting o.last []

theorem consistent_start {harness : Harness} (hnew : Harness.new config = .ok harness) :
    (start harness window authority).Consistent := by
  obtain ⟨engine, hengine, rfl⟩ := Harness.new_eq_ok hnew
  obtain ⟨-, rfl⟩ := Engine.new_eq_ok hengine
  refine ⟨fun _ => le_refl _, Engine.sane_new hengine, ?_, ?_, ?_, fun _ => .inl rfl, fun _ => Nat.zero_le _⟩
  · rintro contract status (hmem | ⟨x, hx, -⟩)
    · cases hmem
    · cases hx
  · intro contract record hrecord
    have hentry := Option.join_eq_some_iff.mp hrecord
    simp [Harness.start, start, Ledger.new, List.getElem?_replicate] at hentry
  · intro contract status hmem
    cases hmem

/-- A report is logged, and the log drained. -/
theorem Consistent.report (hc : o.Consistent)
    (hsome : (o.harness.engine.ledger.contract contract).isSome = true) :
    (o.perform clocks (.report contract)).Consistent := by
  have hclimbs : o.last contract ≤ o.oracle.status contract := hc.told contract
  have hmore : ∀ c, o.last c ≤ Function.update o.last contract (o.oracle.status contract) c := by
    intro c
    rw [Function.update_apply]
    split
    next heq => exact heq ▸ hclimbs
    next => exact le_refl _
  refine ⟨fun c => ?_, ?_⟩
  · show Function.update o.last contract (o.oracle.status contract) c ≤ o.oracle.status c
    rw [Function.update_apply]
    split
    next heq => exact heq ▸ le_refl _
    next => exact hc.told c
  · have hr := hc.reporting
    have hlogged : ({ o.harness with custody := { o.harness.custody with
        log := o.harness.custody.log.append
          (.oracleStatusReported contract (o.oracle.status contract)) } } : Harness).Reporting
            (Function.update o.last contract (o.oracle.status contract)) [] := by
      refine ⟨hr.sane, fun c s hunder => ?_, fun c record hrecord => (hr.stored c record hrecord).trans (hmore c),
        hr.heard, fun c => ?_, hr.resolved⟩
      · rcases hunder with hmem | ⟨x, hx, hpayload⟩
        · cases hmem
        rcases List.mem_append.mp hx with hold | hnew
        · obtain ⟨hregistered, hle⟩ := hr.underway c s (.inr ⟨x, hold, hpayload⟩)
          exact ⟨hregistered, hle.trans (hmore c)⟩
        · rw [List.mem_singleton.mp hnew] at hpayload
          obtain ⟨rfl, rfl⟩ := ChainPayload.oracleStatusReported.inj hpayload
          exact ⟨hsome, by rw [Function.update_self]⟩
      · rw [Function.update_apply]
        split
        next heq => exact .inr ⟨_, List.mem_append_right _ (List.mem_singleton_self _), by rw [heq]⟩
        next =>
          refine (hr.logged c).imp id ?_
          rintro ⟨x, hx, hpayload⟩
          exact ⟨x, List.mem_append_left _ hx, hpayload⟩
    exact hlogged.pumpIndexer

theorem Consistent.perform (hc : o.Consistent) (hallowed : o.Allowed op) :
    (o.perform clocks op).Consistent := by
  cases op with
  | oracle op => exact ⟨fun c => (hc.told c).trans (o.oracle.status_le op c), hc.reporting⟩
  | report contract => exact hc.report hallowed
  | harness op =>
      refine ⟨hc.told, ?_⟩
      have hmoves : Harness.Moves clocks Harness.Beside op o.harness [] _ [] :=
        Harness.moves_perform hallowed
      exact hmoves.induct (fun _ _ _ _ hmove hr => hr.move hallowed hmove) hc.reporting

theorem consistent_of_reached (hreached : Reached config clocks window authority o) : o.Consistent := by
  induction hreached with
  | new hnew => exact consistent_start hnew
  | perform _ op hallowed ih => exact ih.perform hallowed

theorem status_le_perform (o : Overseen) (op : OverseenOp) (contract : Nat) :
    o.oracle.status contract ≤ (o.perform clocks op).oracle.status contract := by
  cases op with
  | oracle op => exact o.oracle.status_le op contract
  | _ => exact le_refl _

theorem status_le_run (o : Overseen) (ops : List OverseenOp) (contract : Nat) :
    o.oracle.status contract ≤ (o.run clocks ops).oracle.status contract := by
  induction ops generalizing o with
  | nil => exact le_refl _
  | cons op ops ih => exact (status_le_perform o op contract).trans (ih _)

theorem authority_of_reached (hreached : Reached config clocks window authority o) :
    o.oracle.escalationAuthority = authority := by
  induction hreached with
  | new => rfl
  | perform _ op _ ih =>
      cases op with
      | oracle op => exact Oracle.escalationAuthority_perform.trans ih
      | _ => exact ih

/-- A contest that came to its end was ended by the escalation authority. -/
theorem escalated_of_final (ops : List OverseenOp)
    (hcontested : o.oracle.contracts contract = some .contested)
    (hfinal : (o.run clocks ops).oracle.status contract = .final outcome) :
    .oracle (.escalate contract outcome o.oracle.escalationAuthority) ∈ ops := by
  induction ops generalizing o with
  | nil =>
      have hprogress : o.oracle.status contract = .inProgress := by rw [Oracle.status, hcontested]
      exact absurd (hprogress.symm.trans hfinal) (by simp)
  | cons op ops ih =>
      cases op with
      | oracle oracleOp =>
          have hruling := o.oracle.ruling_perform oracleOp contract
          rw [hcontested] at hruling
          generalize hafter : (o.oracle.perform oracleOp).contracts contract = after at hruling
          cases hruling with
          | same =>
              have hmem := ih (o := o.perform clocks (.oracle oracleOp)) hafter hfinal
              refine List.mem_cons_of_mem _ ?_
              rwa [show (o.perform clocks (.oracle oracleOp)).oracle.escalationAuthority =
                o.oracle.escalationAuthority from Oracle.escalationAuthority_perform] at hmem
          | @escalated _ ruled hop =>
              have hruled : (o.perform clocks (.oracle oracleOp)).oracle.status contract = .final ruled := by
                show (o.oracle.perform oracleOp).status contract = _
                rw [Oracle.status, hafter]
              have hstays : _ ≤ ((o.perform clocks (.oracle oracleOp)).run clocks ops).oracle.status contract :=
                status_le_run _ ops contract
              rw [hruled] at hstays
              obtain rfl : outcome = ruled := by
                simpa using hfinal.symm.trans (OracleStatus.eq_of_final_le hstays)
              rw [hop]
              exact List.mem_cons_self
      | report c =>
          exact List.mem_cons_of_mem _ (ih (o := o.perform clocks (.report c)) hcontested hfinal)
      | harness harnessOp =>
          exact List.mem_cons_of_mem _ (ih (o := o.perform clocks (.harness harnessOp)) hcontested hfinal)

/-- Every entry of the log was handed to the engine. -/
def Delivered (h : Harness) : Prop := ∀ x ∈ h.custody.log.entries, Indexer.translate x ∈ h.commands

/-- Oracle and engine agree on resolution.  The oracle only climbs, its final outcomes stay,
    and it decides a contested proposal by its escalation authority alone.  The engine's
    status of a contract is never past the oracle's and is never final with another outcome.
    Once the whole log is delivered the engine has what was reported last; and it tells a
    resolution at most once. -/
theorem oracle_agreement (hreached : Reached config clocks window authority o) (contract : Nat) :
    (∀ ops, (o.oracle.status contract).rank ≤ ((o.run clocks ops).oracle.status contract).rank ∧
      ∀ outcome, o.oracle.status contract = .final outcome →
        (o.run clocks ops).oracle.status contract = .final outcome) ∧
    (∀ ops outcome, o.oracle.contracts contract = some .contested →
      (o.run clocks ops).oracle.status contract = .final outcome →
        .oracle (.escalate contract outcome authority) ∈ ops) ∧
    (∀ record, o.harness.engine.ledger.contract contract = some record →
      record.oracleStatus.rank ≤ (o.oracle.status contract).rank ∧
      (∀ outcome, record.oracleStatus = .final outcome → o.oracle.status contract = .final outcome) ∧
      (Delivered o.harness → record.oracleStatus = o.last contract)) ∧
    o.harness.emitted.countP (Event.resolves contract) ≤ 1 := by
  have hc := consistent_of_reached hreached
  refine ⟨fun ops => ⟨OracleStatus.rank_mono (status_le_run o ops contract), ?_⟩, ?_, ?_, ?_⟩
  · intro outcome hfinal
    have hstays : _ ≤ (o.run clocks ops).oracle.status contract := status_le_run o ops contract
    rw [hfinal] at hstays
    exact OracleStatus.eq_of_final_le hstays
  · intro ops outcome hcontested hfinal
    have hmem := escalated_of_final ops hcontested hfinal
    rwa [authority_of_reached hreached] at hmem
  · intro record hrecord
    have hbelow : record.oracleStatus ≤ o.oracle.status contract :=
      (hc.reporting.stored contract record hrecord).trans (hc.told contract)
    refine ⟨OracleStatus.rank_mono hbelow, fun outcome hfinal => ?_, fun hdelivered => ?_⟩
    · rw [hfinal] at hbelow
      exact OracleStatus.eq_of_final_le hbelow
    · -- the last report was logged, so it was heard; and none is above it
      refine le_antisymm (hc.reporting.stored contract record hrecord) ?_
      rcases hc.reporting.logged contract with hsilent | ⟨x, hx, hpayload⟩
      · rw [hsilent]
        exact OracleStatus.silent_le _
      · have hheard := hdelivered x hx
        rw [Indexer.translate, hpayload] at hheard
        obtain ⟨record', hrecord', hle⟩ := hc.reporting.heard contract _ hheard
        obtain rfl := Option.some.inj (hrecord.symm.trans hrecord')
        exact hle
  · refine (hc.reporting.resolved contract).trans ?_
    exact Engine.finals_le_one

/-- A contested proposal, ruled on while the indexer is behind: the engine hears of the
    contest late, and of the ruling once. -/
def ruledOps : List OverseenOp :=
  [.harness (.apply (.registerContract 0 1000)), .report 0, .oracle (.propose 0 .yes 5), .report 0,
    .oracle (.contest 0), .harness .rewind, .oracle (.finalise 0 500), .report 0,
    .oracle (.escalate 0 .no 3), .report 0, .harness .advanceBlock, .harness .advanceBlock,
    .harness .forgetEverything, .harness .pumpIndexer]

def ruled : Overseen := (start Harness.small 10 3).run (Harness.stopped 5) ruledOps

theorem oracle_agreement_ruled :
    (∃ record, ruled.harness.engine.ledger.contract 0 = some record ∧ record.oracleStatus = .final .no ∧
      record.oracleStatus = ruled.last 0) ∧
    ruled.harness.emitted.countP (Event.resolves 0) ≤ 1 := by
  have hlets : Lets (Harness.stopped 5) (start Harness.small 10 3) ruledOps := by
    simp only [ruledOps, Lets, Allowed, Harness.Beside, true_and, and_true]
    decide +kernel
  have hreached : Reached Config.small (Harness.stopped 5) 10 3 ruled :=
    Reached.run ruledOps (.new rfl) hlets
  have hagreement := oracle_agreement hreached 0
  refine ⟨?_, hagreement.2.2.2⟩
  have hsome : (ruled.harness.engine.ledger.contract 0).any
      (fun record => decide (record.oracleStatus = .final .no)) = true := by
    decide +kernel
  obtain ⟨record, hrecord, hfinal⟩ := (Option.any_eq_true _ _).mp hsome
  refine ⟨record, hrecord, of_decide_eq_true hfinal, (hagreement.2.2.1 record hrecord).2.2 ?_⟩
  unfold Delivered
  decide +kernel

end Overseen

end RfqSettlement
