/-
  RfqSettlement.Core.Resolution

  Which outcomes a contract pays.

  A reported outcome never changes.  The stall exit pays `Void` while the oracle is
  silent past the grace period, but using it leaves no mark on the contract: a
  later report is still admitted, and pays whatever it says.  So a contract pays
  one outcome in a run exactly if it is not paid through its stall exit and then,
  later, under a report of anything but `Void`.
-/

import RfqSettlement.Core.Runs

namespace RfqSettlement

namespace Contract

/-- A resolved contract has a final report, of the same outcome. -/
def Final (c : Contract) : Prop := ∀ o, c.state = .resolved o → c.oracleStatus = .final o

theorem final_new {eventDate : Nat} : (Contract.new eventDate).Final := by
  rintro o ⟨⟩

theorem Final.setOracleStatus {c : Contract} {status : OracleStatus} (h : c.Final)
    (hmay : c.mayReport status = true) : (c.setOracleStatus status).Final := by
  cases status with
  | final outcome =>
      rintro o ⟨⟩
      rfl
  | silent => simp [mayReport, OracleStatus.rank] at hmay
  | inProgress =>
      intro o ho
      have hfinal := h o ho
      simp [mayReport, hfinal, OracleStatus.rank] at hmay

/-- No report follows a final one. -/
theorem Final.not_mayReport {c : Contract} {status : OracleStatus} {o : Outcome} (h : c.Final)
    (ho : c.state = .resolved o) : c.mayReport status = false := by
  have hrank : status.rank ≤ 2 := by cases status <;> simp [OracleStatus.rank]
  simpa [mayReport, h o ho, OracleStatus.rank] using hrank

end Contract

namespace Engine

open Ledger (Carried)

variable {e : Engine} {command : Command} {now contract escrow : Nat} {events : EventBuffer}
  {answer : Answer} {input : Input} {record : Contract} {o : Outcome} {config : Config}

-- ============================================================================
-- The contract table
-- ============================================================================

/-- What a command can do to one contract: nothing, register it, or record an
    admissible report. -/
inductive Reports : Option Contract → Option Contract → Prop where
  | same {entry : Option Contract} : Reports entry entry
  | new {eventDate : Nat} : Reports none (some (Contract.new eventDate))
  | report {record : Contract} {status : OracleStatus} (hmay : record.mayReport status = true) :
      Reports (some record) (some (record.setOracleStatus status))

theorem Performs.reports (hp : Performs e now events command answer) (contract : Nat) :
    Reports (e.ledger.contract contract) (answer.2.1.ledger.contract contract) := by
  have hsame : ∀ {l : Ledger}, l.contracts = e.ledger.contracts →
      Reports (e.ledger.contract contract) (l.contract contract) := by
    intro l heq
    rw [show l.contract contract = e.ledger.contract contract by simp only [Ledger.contract, heq]]
    exact .same
  cases hp with
  | refused => exact .same
  | traded _ _ hcarried => exact hsame hcarried.sized.contracts
  | withdrawn _ hcarried => exact hsame hcarried.sized.contracts
  | @registered contract' eventDate hnew =>
      simp only [done, registerContract_eq hnew, Ledger.contract, List.getElem?_set]
      split
      next heq =>
        subst heq
        rw [hnew]
        split <;> first | exact .new | exact .same
      next => exact .same
  | @reported contract' status record hrecord hmay =>
      simp only [done, Ledger.setOracleStatus, Ledger.contract, List.getElem?_modify]
      by_cases heq : contract' = contract
      · subst heq
        have hentry : e.ledger.contracts[contract']? = some (some record) :=
          Option.join_eq_some_iff.mp hrecord
        simp only [hentry, if_true, Option.map_eq_map, Option.map_some, Option.join_some]
        exact .report hmay
      · simp only [if_neg heq, Option.map_eq_map, Option.map_id']
        exact .same
  | accepted _ hacc => exact hsame hacc.sized.contracts
  | resolved _ _ _ _ hres => exact hsame hres.carried.sized.contracts
  | paid => exact .same

theorem Sane.reports_step (input : Input) (h : e.Sane) (contract : Nat) :
    Reports (e.ledger.contract contract) ((e.step input).ledger.contract contract) := by
  have hn := h.normalised input.command input.now
  have hreports := (hn.sane.performs input.command input.now
    (.withCapacity input.capacity)).reports contract
  rwa [show (e.normaliseAll _ _).ledger.contract contract = e.ledger.contract contract by
    simp only [Ledger.contract, hn.contracts]] at hreports

theorem final_of_reachable (h : Reachable config e) (hrecord : e.ledger.contract contract = some record) :
    record.Final := by
  induction h generalizing record with
  | new h =>
      obtain ⟨-, rfl⟩ := new_eq_ok h
      obtain hentry := Option.join_eq_some_iff.mp hrecord
      simp [Ledger.new, List.getElem?_replicate] at hentry
  | step h input ih =>
      have hreports := (sane_of_reachable h).reports_step input contract
      rw [hrecord] at hreports
      generalize hbefore : Ledger.contract _ contract = before at hreports
      cases hreports with
      | same => exact ih hbefore
      | new => exact Contract.final_new
      | report hmay => exact (ih hbefore).setOracleStatus hmay

/-- A reported outcome stays. -/
theorem resolved_step (h : Reachable config e) (hrecord : e.ledger.contract contract = some record)
    (hresolved : record.state = .resolved o) :
    (e.step input).ledger.contract contract = some record := by
  have hreports := (sane_of_reachable h).reports_step input contract
  rw [hrecord] at hreports
  generalize (e.step input).ledger.contract contract = after at hreports ⊢
  cases hreports with
  | same => rfl
  | report hmay =>
      rw [(final_of_reachable h hrecord).not_mayReport hresolved] at hmay
      cases hmay

-- ============================================================================
-- Payments
-- ============================================================================

/-- A payment comes from `SettleEscrow`, under the outcome of the contract then. -/
theorem Performs.pays (hp : Performs e now events command answer) (hdrained : events.events = [])
    (hmem : .settleIntent escrow contract o ∈ answer.2.2.events) :
    command = .settleEscrow escrow contract ∧ events.headroom 1 = true ∧
      ∃ record, e.ledger.contract contract = some record ∧
        record.outcome now e.config.stallGrace = some o := by
  have hquiet : ∀ {b : EventBuffer}, EventBuffer.Quiet events b →
      .settleIntent escrow contract o ∉ b.events := by
    rintro b ⟨new, hb, hall⟩ hmem
    rw [hb, hdrained, List.nil_append] at hmem
    have := hall _ hmem
    simp [Event.isOrder] at this
  cases hp with
  | refused => simp [refuse, hdrained] at hmem
  | traded _ _ hcarried => exact absurd hmem (hquiet hcarried.quiet)
  | withdrawn _ hcarried => exact absurd hmem (hquiet hcarried.quiet)
  | registered => simp [done, hdrained] at hmem
  | @reported contract' status record hrecord hmay =>
      refine absurd hmem (hquiet ?_)
      cases status with
      | final outcome => exact EventBuffer.quiet_push rfl
      | _ => exact .refl _
  | accepted _ hacc =>
      obtain ⟨b, hnoted, hevents⟩ := hacc.events
      have hmem : .settleIntent escrow contract o ∈ b.events ++ _ := hevents ▸ hmem
      rcases List.mem_append.mp hmem with hmem | hmem
      · exact absurd hmem (hquiet hnoted.quiet)
      · simp [Ledger.intentOf] at hmem
  | resolved _ _ _ _ hres => exact absurd hmem (hquiet hres.carried.quiet)
  | @paid escrow' contract' record outcome hrecord hout hroom =>
      have hlt : events.events.length < events.capacity := by
        simpa [EventBuffer.headroom, Nat.succ_le_iff] using hroom
      rw [EventBuffer.push_of_room hlt, hdrained, List.nil_append, List.mem_singleton] at hmem
      obtain ⟨rfl, rfl, rfl⟩ := hmem
      exact ⟨rfl, hroom, record, hrecord, hout⟩

/-- `input` is a payment on `contract`, with room for its event. -/
def Asks (input : Input) (contract : Nat) : Prop :=
  (∃ escrow, input.command = .settleEscrow escrow contract) ∧ 0 < input.capacity

/-- `input` pays `contract` through its stall exit: unresolved, silent, and past
    the grace period. -/
def PaysStalled (e : Engine) (input : Input) (contract : Nat) : Prop :=
  Asks input contract ∧ ∃ record, e.ledger.contract contract = some record ∧
    record.state = .unresolved ∧ record.stallExitOpen input.now e.config.stallGrace = true

/-- `input` pays `contract` under the reported outcome `o`. -/
def PaysReported (e : Engine) (input : Input) (contract : Nat) (o : Outcome) : Prop :=
  Asks input contract ∧ ∃ record, e.ledger.contract contract = some record ∧
    record.state = .resolved o

/-- A payment goes through the stall exit, as `Void`, or under a report. -/
theorem emits_settleIntent (h : Reachable config e) :
    (∃ escrow, .settleIntent escrow contract o ∈ e.emits input) ↔
      (o = .void ∧ PaysStalled e input contract) ∨ PaysReported e input contract o := by
  have hn := (sane_of_reachable h).normalised input.command input.now
  have hcontract : (e.normaliseAll (e.touchedAccounts input.command) input.now).ledger.contract
      contract = e.ledger.contract contract := by simp only [Ledger.contract, hn.contracts]
  constructor
  · rintro ⟨escrow, hmem⟩
    obtain ⟨hcommand, hroom, record, hrecord, hout⟩ :=
      (hn.sane.performs _ _ _).pays rfl hmem
    rw [hcontract] at hrecord
    rw [hn.config] at hout
    have hasks : Asks input contract := by
      refine ⟨⟨escrow, hcommand⟩, ?_⟩
      simpa [EventBuffer.headroom, EventBuffer.withCapacity, Nat.one_le_iff_ne_zero,
        Nat.pos_iff_ne_zero] using hroom
    cases hstate : record.state with
    | resolved o' =>
        simp only [Contract.outcome, hstate, Option.some.injEq] at hout
        subst hout
        exact .inr ⟨hasks, record, hrecord, hstate⟩
    | unresolved =>
        simp only [Contract.outcome, hstate] at hout
        split at hout
        next hopen =>
          rw [Option.some.injEq] at hout
          exact .inl ⟨hout.symm, hasks, record, hrecord, hstate, hopen⟩
        next => cases hout
  · have hpays : ∀ record, Asks input contract → e.ledger.contract contract = some record →
        record.outcome input.now e.config.stallGrace = some o →
          ∃ escrow, .settleIntent escrow contract o ∈ e.emits input := by
      rintro record ⟨⟨escrow, hcommand⟩, hcapacity⟩ hrecord hout
      have hroom : (EventBuffer.withCapacity input.capacity).headroom 1 = true := by
        simpa [EventBuffer.headroom, EventBuffer.withCapacity, Nat.one_le_iff_ne_zero,
          Nat.pos_iff_ne_zero] using hcapacity
      refine ⟨escrow, ?_⟩
      rw [hcommand] at hcontract
      have hconfig := hn.config
      rw [hcommand] at hconfig
      simp only [emits, Engine.answer, apply, hcommand, perform, settleEscrow, hcontract, hrecord,
        hconfig, hout, hroom, Bool.not_true, Bool.false_eq_true, if_false]
      rw [EventBuffer.push_of_room (by simpa [EventBuffer.withCapacity] using hcapacity)]
      simp
    rintro (⟨rfl, hasks, record, hrecord, hstate, hopen⟩ | ⟨hasks, record, hrecord, hstate⟩)
    · exact hpays record hasks hrecord (by simp [Contract.outcome, hstate, hopen])
    · exact hpays record hasks hrecord (by simp [Contract.outcome, hstate])

-- ============================================================================
-- Runs
-- ============================================================================

/-- The inputs of a run, each with the engine it finds. -/
def trace : Engine → List Input → List (Engine × Input)
  | _, [] => []
  | e, input :: inputs => (e, input) :: trace (e.step input) inputs

/-- Everything a run emits. -/
def emitted (e : Engine) (inputs : List Input) : List Event :=
  (e.trace inputs).flatMap fun x => x.1.emits x.2

variable {inputs : List Input} {x x' : Engine × Input} {i j : Nat}

theorem Reachable.trace (h : Reachable config e) (hx : (e.trace inputs)[i]? = some x) :
    Reachable config x.1 := by
  induction inputs generalizing e i with
  | nil => simp [Engine.trace] at hx
  | cons input inputs ih =>
      cases i with
      | zero =>
          simp only [Engine.trace, List.getElem?_cons_zero, Option.some.injEq] at hx
          exact hx ▸ h
      | succ i => exact ih (h.step input) hx

/-- A reported outcome stays for the rest of a run. -/
theorem resolved_trace (h : Reachable config e) (hrecord : e.ledger.contract contract = some record)
    (hresolved : record.state = .resolved o) (hx : (e.trace inputs)[i]? = some x) :
    x.1.ledger.contract contract = some record := by
  induction inputs generalizing e i with
  | nil => simp [trace] at hx
  | cons input inputs ih =>
      cases i with
      | zero =>
          simp only [trace, List.getElem?_cons_zero, Option.some.injEq] at hx
          exact hx ▸ hrecord
      | succ i => exact ih (h.step input) (resolved_step h hrecord hresolved) hx

theorem resolved_later (h : Reachable config e) (hx : (e.trace inputs)[i]? = some x)
    (hx' : (e.trace inputs)[j]? = some x') (hij : i ≤ j)
    (hrecord : x.1.ledger.contract contract = some record) (hresolved : record.state = .resolved o) :
    x'.1.ledger.contract contract = some record := by
  induction inputs generalizing e i j with
  | nil => simp [trace] at hx
  | cons input inputs ih =>
      cases i with
      | zero =>
          simp only [trace, List.getElem?_cons_zero, Option.some.injEq] at hx
          subst hx
          exact resolved_trace h hrecord hresolved hx'
      | succ i =>
          cases j with
          | zero => omega
          | succ j => exact ih (h.step input) hx hx' (by omega)

/-- Two reports of one run agree on a contract. -/
theorem reported_unique {o' : Outcome} (h : Reachable config e)
    (hx : (e.trace inputs)[i]? = some x) (hx' : (e.trace inputs)[j]? = some x')
    (hpays : PaysReported x.1 x.2 contract o) (hpays' : PaysReported x'.1 x'.2 contract o') :
    o = o' := by
  obtain ⟨-, record, hrecord, hstate⟩ := hpays
  obtain ⟨-, record', hrecord', hstate'⟩ := hpays'
  have hsame : record = record' := by
    rcases Nat.le_total i j with hij | hij
    · rw [resolved_later h hx hx' hij hrecord hstate, Option.some.injEq] at hrecord'
      exact hrecord'
    · rw [resolved_later h hx' hx hij hrecord' hstate', Option.some.injEq] at hrecord
      exact hrecord.symm
  rw [hsame, hstate', ContractState.resolved.injEq] at hstate
  exact hstate.symm

theorem mem_emitted {ev : Event} :
    ev ∈ e.emitted inputs ↔ ∃ (i : Nat) (x : Engine × Input),
      (e.trace inputs)[i]? = some x ∧ ev ∈ x.1.emits x.2 := by
  rw [emitted, List.mem_flatMap]
  simp only [List.mem_iff_getElem? (l := e.trace inputs)]
  exact ⟨fun ⟨x, ⟨i, hx⟩, hmem⟩ => ⟨i, x, hx, hmem⟩, fun ⟨i, x, hx, hmem⟩ => ⟨x, ⟨i, hx⟩, hmem⟩⟩

/-- A run pays every contract one outcome exactly if no contract is paid through
    its stall exit and later under a report of anything but `Void`. -/
theorem one_outcome_iff (h : Engine.new config = .ok e) (inputs : List Input) :
    (∀ contract escrow escrow' o o', .settleIntent escrow contract o ∈ e.emitted inputs →
      .settleIntent escrow' contract o' ∈ e.emitted inputs → o = o') ↔
    ∀ contract (i j : Nat) x x' o, i < j → (e.trace inputs)[i]? = some x →
      (e.trace inputs)[j]? = some x' → PaysStalled x.1 x.2 contract →
        PaysReported x'.1 x'.2 contract o → o = .void := by
  have hreach : Reachable config e := .new h
  constructor
  · intro hone contract i j x x' o _ hx hx' hstalled hreported
    obtain ⟨escrow, hmem⟩ := (emits_settleIntent (o := .void) (hreach.trace hx)).mpr
      (.inl ⟨rfl, hstalled⟩)
    obtain ⟨escrow', hmem'⟩ := (emits_settleIntent (hreach.trace hx')).mpr (.inr hreported)
    exact (hone contract escrow escrow' .void o (mem_emitted.mpr ⟨i, x, hx, hmem⟩)
      (mem_emitted.mpr ⟨j, x', hx', hmem'⟩)).symm
  · intro hnever contract escrow escrow' o o' hmem hmem'
    obtain ⟨i, x, hx, hmem⟩ := mem_emitted.mp hmem
    obtain ⟨j, x', hx', hmem'⟩ := mem_emitted.mp hmem'
    -- a payment through the stall exit and one under a report
    have hmixed : ∀ {i j : Nat} {x x' : Engine × Input} {o : Outcome},
        (e.trace inputs)[i]? = some x → (e.trace inputs)[j]? = some x' →
          PaysStalled x.1 x.2 contract → PaysReported x'.1 x'.2 contract o → o = .void := by
      intro i j x x' o hx hx' hstalled hreported
      rcases Nat.lt_or_ge i j with hij | hij
      · exact hnever contract i j x x' o hij hx hx' hstalled hreported
      · obtain ⟨-, record, hrecord, hunresolved, -⟩ := hstalled
        obtain ⟨-, record', hrecord', hresolved⟩ := hreported
        rw [resolved_later hreach hx' hx hij hrecord' hresolved, Option.some.injEq] at hrecord
        rw [← hrecord, hresolved] at hunresolved
        cases hunresolved
    rcases (emits_settleIntent (hreach.trace hx)).mp ⟨escrow, hmem⟩ with
      ⟨rfl, hstalled⟩ | hreported
    · rcases (emits_settleIntent (hreach.trace hx')).mp ⟨escrow', hmem'⟩ with
        ⟨rfl, -⟩ | hreported'
      · rfl
      · exact (hmixed hx hx' hstalled hreported').symm
    · rcases (emits_settleIntent (hreach.trace hx')).mp ⟨escrow', hmem'⟩ with
        ⟨rfl, hstalled'⟩ | hreported'
      · exact hmixed hx' hx hstalled' hreported
      · exact reported_unique hreach hx hx' hreported hreported'

/-- The venue of the runs below, before its first command. -/
def opening : Engine := ⟨Config.small, Ledger.new Config.small, 0⟩

/-- Two payments through the stall exit. -/
def stalledTwice : List Input :=
  [⟨.registerContract 0 1000, 0, 8⟩, ⟨.settleEscrow 0 0, 1011, 8⟩, ⟨.settleEscrow 1 0, 1012, 8⟩]

/-- Two payments through the stall exit pay the same. -/
theorem one_outcome_iff_stalledTwice :
    opening.emitted stalledTwice = [.settleIntent 0 0 .void, .settleIntent 1 0 .void] ∧
      ∀ contract escrow escrow' o o',
        .settleIntent escrow contract o ∈ opening.emitted stalledTwice →
          .settleIntent escrow' contract o' ∈ opening.emitted stalledTwice → o = o' := by
  refine ⟨by decide +kernel,
    (one_outcome_iff (show Engine.new Config.small = .ok opening from rfl) _).mpr ?_⟩
  rintro contract i j x x' o - - hx' - ⟨⟨⟨escrow, hcommand⟩, -⟩, record, hrecord, hresolved⟩
  -- no payment of this run finds the contract resolved
  have hall : ∀ y ∈ opening.trace stalledTwice, (y.1.ledger.contract 0).all
      (fun (c : Contract) => decide (c.state = .unresolved)) = true ∧
        ∀ escrow contract, y.2.command = .settleEscrow escrow contract → contract = 0 := by
    simp only [stalledTwice, trace, List.forall_mem_cons]
    refine ⟨⟨by decide +kernel, by simp⟩, ⟨by decide +kernel, by simp⟩,
      ⟨by decide +kernel, by simp⟩, by simp⟩
  obtain ⟨hunresolved, hzero⟩ := hall x' (List.mem_of_getElem? hx')
  obtain rfl := hzero _ _ hcommand
  rw [hrecord] at hunresolved
  simp [hresolved] at hunresolved

/-- Paid through the stall exit, reported `Yes`, and paid again. -/
def lateReport : List Input :=
  [⟨.registerContract 0 1000, 0, 8⟩, ⟨.settleEscrow 0 0, 1011, 8⟩,
    ⟨.reportOracleStatus 0 (.final .yes), 1012, 8⟩, ⟨.settleEscrow 1 0, 1013, 8⟩]

/-- A report that comes after the stall exit was used pays the other outcome. -/
theorem late_report_pays_otherwise :
    ¬ ∀ (config : Config) (e : Engine) (inputs : List Input), Engine.new config = .ok e →
      inputs.Pairwise (fun a b => a.now ≤ b.now) →
        ∀ contract escrow escrow' o o', .settleIntent escrow contract o ∈ e.emitted inputs →
          .settleIntent escrow' contract o' ∈ e.emitted inputs → o = o' := by
  intro h
  have := h Config.small opening lateReport rfl (by decide) 0 0 1 .void .yes (by decide +kernel)
    (by decide +kernel)
  cases this

end Engine

end RfqSettlement
