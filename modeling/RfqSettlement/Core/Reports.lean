/-
  RfqSettlement.Core.Reports

  What the oracle's reports leave behind.

  The status stored for a contract is the one of the last report the engine accepted,
  and it only climbs.  So a report of progress closes the stall exit until a final
  report, and a final report is the last.
-/

import RfqSettlement.Core.Resolution

namespace RfqSettlement

namespace Contract

variable {c : Contract} {status : OracleStatus}

@[simp] theorem oracleStatus_setOracleStatus :
    (c.setOracleStatus status).oracleStatus = status := by
  cases status <;> rfl

theorem mayReport_iff : c.mayReport status = true ↔ c.oracleStatus.rank < status.rank := by
  simp [mayReport]

end Contract

namespace Engine

variable {e : Engine} {config : Config} {now contract escrow : Nat} {input : Input}
  {inputs : List Input} {status : OracleStatus} {record record' : Contract} {o : Outcome}
  {x x' : Engine × Input} {i j : Nat}

/-- The engine accepts `input` as a report of `status` for `contract`. -/
def Reported (e : Engine) (input : Input) (contract : Nat) (status : OracleStatus) : Prop :=
  input.command = .reportOracleStatus contract status ∧ (e.answer input).1 = .ok ()

-- ============================================================================
-- One command
-- ============================================================================

theorem contract_normalised (h : e.Sane) (command : Command) (now contract : Nat) :
    (e.normaliseAll (e.touchedAccounts command) now).ledger.contract contract =
      e.ledger.contract contract := by
  simp only [Ledger.contract, (h.normalised command now).contracts]

/-- A report that is accepted moves the status forwards. -/
theorem Sane.reported (h : e.Sane) (hreported : Reported e input contract status) :
    ∃ record, e.ledger.contract contract = some record ∧ record.mayReport status = true ∧
      (e.step input).ledger.contract contract = some (record.setOracleStatus status) := by
  obtain ⟨hcommand, hok⟩ := hreported
  have hcontract := contract_normalised h (.reportOracleStatus contract status) input.now contract
  have hanswer : e.answer input = (e.normaliseAll (e.touchedAccounts input.command)
      input.now).reportOracleStatus contract status (.withCapacity input.capacity) := by
    rw [answer, Engine.apply, hcommand, Engine.perform]
  rw [step, hanswer]
  rw [hanswer, hcommand] at hok
  rw [hcommand]
  generalize e.normaliseAll _ input.now = n at hcontract hok
  rcases n.reportOracleStatus_cases contract status (.withCapacity input.capacity) with
    ⟨err, heq⟩ | ⟨record, hrecord, hmay, heq⟩
  · rw [heq] at hok
    cases hok
  · have hentry : n.ledger.contracts[contract]? = some (some record) :=
      Option.join_eq_some_iff.mp hrecord
    refine ⟨record, hcontract ▸ hrecord, hmay, ?_⟩
    simp [heq, done, Ledger.setOracleStatus, Ledger.contract, hentry]

theorem Performs.contract_kept {command : Command} {events : EventBuffer} {answer : Answer}
    (hp : Performs e now events command answer) (hrecord : e.ledger.contract contract = some record)
    (hother : ∀ status, command ≠ .reportOracleStatus contract status) :
    answer.2.1.ledger.contract contract = some record := by
  have hentry : e.ledger.contracts[contract]? = some (some record) := Option.join_eq_some_iff.mp hrecord
  have hsame : ∀ {l : Ledger}, l.contracts = e.ledger.contracts → l.contract contract = some record := by
    intro l heq
    rw [Ledger.contract, heq]
    exact hrecord
  cases hp with
  | refused => exact hrecord
  | traded _ _ hcarried => exact hsame hcarried.sized.contracts
  | withdrawn _ hcarried => exact hsame hcarried.sized.contracts
  | @registered contract' eventDate hnew =>
      have hne : contract' ≠ contract := by
        rintro rfl
        rw [hentry] at hnew
        cases hnew
      simp only [done, registerContract_eq hnew, Ledger.contract, List.getElem?_set, if_neg hne, hentry]
      rfl
  | @reported contract' status =>
      have hne : contract' ≠ contract := by
        rintro rfl
        exact hother status rfl
      simp only [done, Ledger.setOracleStatus, Ledger.contract, List.getElem?_modify, if_neg hne, hentry]
      rfl
  | accepted _ hacc => exact hsame hacc.sized.contracts
  | resolved _ _ _ _ hres => exact hsame hres.carried.sized.contracts
  | paid => exact hrecord

/-- Whatever else happens, a contract stays as it is. -/
theorem Sane.contract_kept (h : e.Sane) (hrecord : e.ledger.contract contract = some record)
    (hnot : ∀ status, ¬ Reported e input contract status) :
    (e.step input).ledger.contract contract = some record := by
  have hn := h.normalised input.command input.now
  have hcontract := contract_normalised h input.command input.now contract
  rw [hrecord] at hcontract
  have hanswer : e.answer input = (e.normaliseAll (e.touchedAccounts input.command)
      input.now).perform input.command input.now (.withCapacity input.capacity) := rfl
  by_cases hreport : ∃ status, input.command = .reportOracleStatus contract status
  · obtain ⟨status, hcommand⟩ := hreport
    have hrefused : (e.answer input).1 ≠ .ok () := fun hok => hnot status ⟨hcommand, hok⟩
    rw [step, hanswer]
    rw [hanswer] at hrefused
    generalize e.normaliseAll _ input.now = n at hcontract hrefused
    rw [hcommand, Engine.perform] at hrefused ⊢
    rcases n.reportOracleStatus_cases contract status (.withCapacity input.capacity) with
      ⟨err, heq⟩ | ⟨record', -, -, heq⟩
    · rw [heq]
      exact hcontract
    · exact absurd (by rw [heq]; rfl) hrefused
  · exact (hn.sane.performs input.command input.now (.withCapacity input.capacity)).contract_kept
      hcontract fun status hcommand => hreport ⟨status, hcommand⟩

theorem config_of_reachable (h : Reachable config e) : e.config = config := by
  induction h with
  | new hnew =>
      obtain ⟨-, rfl⟩ := new_eq_ok hnew
      rfl
  | step h input ih =>
      obtain ⟨scope, -, hadv⟩ := (sane_of_reachable h).apply input.command input.now
        (.withCapacity input.capacity)
      exact hadv.config.trans ih

-- ============================================================================
-- Runs
-- ============================================================================

/-- A run at one of its inputs. -/
theorem trace_getElem : (e.trace inputs)[i]? = some x ↔
    inputs[i]? = some x.2 ∧ x.1 = e.run (inputs.take i) := by
  induction inputs generalizing e i with
  | nil => simp [trace]
  | cons input inputs ih =>
      cases i with
      | zero =>
          simp only [trace, List.getElem?_cons_zero, Option.some.injEq, List.take_zero, Engine.run,
            List.foldl_nil]
          constructor
          · rintro rfl
            exact ⟨rfl, rfl⟩
          · rintro ⟨rfl, hx⟩
            exact Prod.ext hx.symm rfl
      | succ i =>
          rw [trace, List.getElem?_cons_succ, ih]
          rfl

theorem run_take_succ (e : Engine) (hinput : inputs[i]? = some input) :
    e.run (inputs.take (i + 1)) = (e.run (inputs.take i)).step input := by
  rw [Engine.run, List.take_add_one, hinput, Option.toList_some, List.foldl_append]
  rfl

theorem exists_input (hx : (e.trace inputs)[j]? = some x) (hij : i < j) :
    ∃ input, inputs[i]? = some input := by
  obtain ⟨hinput, -⟩ := trace_getElem.mp hx
  have hlen := (List.getElem?_eq_some_iff.mp hinput).1
  exact ⟨inputs[i], List.getElem?_eq_getElem (hij.trans hlen)⟩

/-- An engine of a paced run was reached by the instant of its input. -/
theorem Paced.trace {ok : Engine → Input → Prop} (hpaced : Paced ok now e inputs)
    (h : ReachableAt config now e) (hx : (e.trace inputs)[j]? = some x) :
    ∃ last, last ≤ x.2.now ∧ ReachableAt config last x.1 ∧ ok x.1 x.2 := by
  induction inputs generalizing e now j with
  | nil => simp [Engine.trace] at hx
  | cons input inputs ih =>
      obtain ⟨hnow, hok, hpaced⟩ := hpaced
      cases j with
      | zero =>
          rw [Engine.trace, List.getElem?_cons_zero, Option.some.injEq] at hx
          subst hx
          exact ⟨now, hnow, h, hok⟩
      | succ j =>
          rw [Engine.trace, List.getElem?_cons_succ] at hx
          exact ih hpaced (h.step input hnow) hx

/-- A stored status was reported, and the report accepted. -/
theorem status_reported (h : Engine.new config = .ok e) (hx : (e.trace inputs)[j]? = some x)
    (hrecord : x.1.ledger.contract contract = some record)
    (hstatus : record.oracleStatus ≠ .silent) :
    ∃ k y, k < j ∧ (e.trace inputs)[k]? = some y ∧
      Reported y.1 y.2 contract record.oracleStatus := by
  induction j generalizing x record with
  | zero =>
      obtain ⟨-, hzero⟩ := trace_getElem.mp hx
      obtain ⟨-, rfl⟩ := new_eq_ok h
      rw [hzero] at hrecord
      have hentry := Option.join_eq_some_iff.mp hrecord
      simp [Engine.run, Ledger.new, List.getElem?_replicate] at hentry
  | succ j ih =>
      obtain ⟨input, hinput⟩ := exists_input hx (Nat.lt_succ_self j)
      have hy : (e.trace inputs)[j]? = some (e.run (inputs.take j), input) :=
        trace_getElem.mpr ⟨hinput, rfl⟩
      have hreach : Reachable config (e.run (inputs.take j)) := (Reachable.new h).run _
      rw [(trace_getElem.mp hx).2, run_take_succ e hinput] at hrecord
      generalize e.run (inputs.take j) = before at hy hreach hrecord
      by_cases hreport : ∃ status, Reported before input contract status
      · obtain ⟨status, hreported⟩ := hreport
        obtain ⟨record', -, -, hafter⟩ := (sane_of_reachable hreach).reported hreported
        rw [hafter] at hrecord
        obtain rfl := Option.some.inj hrecord
        exact ⟨j, (before, input), Nat.lt_succ_self j, hy, by simpa using hreported⟩
      · cases hbefore : before.ledger.contract contract with
        | none =>
            have hreports := (sane_of_reachable hreach).reports_step input contract
            rw [hbefore, hrecord] at hreports
            cases hreports
            exact absurd rfl hstatus
        | some record' =>
            have hkept := (sane_of_reachable hreach).contract_kept hbefore
              fun status hreported => hreport ⟨status, hreported⟩
            rw [hkept] at hrecord
            obtain rfl := Option.some.inj hrecord
            obtain ⟨k, y, hk, hy', hreported⟩ := ih hy hbefore hstatus
            exact ⟨k, y, Nat.lt_succ_of_lt hk, hy', hreported⟩

/-- Along a run a contract stays as it is or its status climbs. -/
theorem status_climbs (h : Reachable config e) (hij : i ≤ j) (hlen : j ≤ inputs.length)
    (hrecord : (e.run (inputs.take i)).ledger.contract contract = some record) :
    ∃ record', (e.run (inputs.take j)).ledger.contract contract = some record' ∧
      (record' = record ∨ record.oracleStatus.rank < record'.oracleStatus.rank) := by
  induction j, hij using Nat.le_induction with
  | base => exact ⟨record, hrecord, .inl rfl⟩
  | succ j _ ih =>
      obtain ⟨record', hrecord', hclimbs⟩ := ih (Nat.le_of_succ_le hlen)
      have hinput : inputs[j]? = some inputs[j] := List.getElem?_eq_getElem hlen
      rw [run_take_succ e hinput]
      have hsane := sane_of_reachable (h.run (inputs.take j))
      by_cases hreport : ∃ status, Reported (e.run (inputs.take j)) inputs[j] contract status
      · obtain ⟨status, hreported⟩ := hreport
        obtain ⟨record'', hbefore, hmay, hafter⟩ := hsane.reported hreported
        obtain rfl := Option.some.inj (hrecord'.symm.trans hbefore)
        have hmore := Contract.mayReport_iff.mp hmay
        refine ⟨_, hafter, .inr ?_⟩
        rw [Contract.oracleStatus_setOracleStatus]
        rcases hclimbs with rfl | hlt
        · exact hmore
        · exact hlt.trans hmore
      · exact ⟨record', hsane.contract_kept hrecord' fun status hreported =>
          hreport ⟨status, hreported⟩, hclimbs⟩

/-- What is stored once a report was accepted. -/
theorem reported_later {r : OracleStatus} (h : Reachable config e)
    (hx : (e.trace inputs)[i]? = some x) (hx' : (e.trace inputs)[j]? = some x') (hij : i < j)
    (hreported : Reported x.1 x.2 contract r) :
    ∃ record record', x.1.ledger.contract contract = some record ∧
      record.oracleStatus.rank < r.rank ∧
      x'.1.ledger.contract contract = some record' ∧
      (record' = record.setOracleStatus r ∨ r.rank < record'.oracleStatus.rank) := by
  obtain ⟨hinput, hbefore⟩ := trace_getElem.mp hx
  obtain ⟨hinput', hbefore'⟩ := trace_getElem.mp hx'
  obtain ⟨record, hrecord, hmay, hafter⟩ := (sane_of_reachable (h.trace hx)).reported hreported
  have hlen := (List.getElem?_eq_some_iff.mp hinput').1
  rw [hbefore, ← run_take_succ e hinput] at hafter
  obtain ⟨record', hrecord', hclimbs⟩ := status_climbs h hij (Nat.le_of_lt hlen) hafter
  refine ⟨record, record', hrecord, Contract.mayReport_iff.mp hmay, hbefore' ▸ hrecord', ?_⟩
  rwa [Contract.oracleStatus_setOracleStatus] at hclimbs

theorem rank_le (r : OracleStatus) : r.rank ≤ 2 := by
  cases r <;> simp [OracleStatus.rank]

/-- The void route closes for good.  Once progress is reported for a contract, no payment
    of it is ordered until a final report is accepted; once that is, no other report is,
    and every payment is of its outcome; and a payment before any final report is void,
    ordered past the grace period while nothing had been reported. -/
theorem void_route_closes (h : Engine.new config = .ok e) (inputs : List Input) (contract : Nat) :
    (∀ (i j : Nat) x x' escrow o, i < j → (e.trace inputs)[i]? = some x →
      (e.trace inputs)[j]? = some x' → Reported x.1 x.2 contract .inProgress →
        .settleIntent escrow contract o ∈ x'.1.emits x'.2 →
          ∃ k y o', i < k ∧ k < j ∧ (e.trace inputs)[k]? = some y ∧
            Reported y.1 y.2 contract (.final o')) ∧
    (∀ (i j : Nat) x x' o, i < j → (e.trace inputs)[i]? = some x →
      (e.trace inputs)[j]? = some x' → Reported x.1 x.2 contract (.final o) →
        (∀ status, ¬ Reported x'.1 x'.2 contract status) ∧
        ∀ escrow o', .settleIntent escrow contract o' ∈ x'.1.emits x'.2 → o' = o) ∧
    ∀ (j : Nat) x escrow o, (e.trace inputs)[j]? = some x →
      .settleIntent escrow contract o ∈ x.1.emits x.2 →
        (∀ k y o', k < j → (e.trace inputs)[k]? = some y → ¬ Reported y.1 y.2 contract (.final o')) →
          o = .void ∧ ∃ record, x.1.ledger.contract contract = some record ∧
            record.oracleStatus = .silent ∧ record.eventDate + config.stallGrace < x.2.now := by
  have hreach : Reachable config e := .new h
  refine ⟨?_, ?_, ?_⟩
  · intro i j x x' escrow o hij hx hx' hreported hmem
    obtain ⟨record, record', hrecord, hlow, hrecord', hlater⟩ := reported_later hreach hx hx' hij hreported
    have hprogress : 1 ≤ record'.oracleStatus.rank := by
      rcases hlater with rfl | hlt
      · rw [Contract.oracleStatus_setOracleStatus]
        exact Nat.le_refl _
      · exact Nat.le_of_lt hlt
    -- with the stall exit closed it was paid under a report
    have hresolved : record'.state = .resolved o := by
      rcases (emits_settleIntent (hreach.trace hx')).mp ⟨escrow, hmem⟩ with
        ⟨-, -, y, hy, -, hopen⟩ | ⟨-, y, hy, hstate⟩
      · obtain rfl := Option.some.inj (hrecord'.symm.trans hy)
        unfold Contract.stallExitOpen at hopen
        split at hopen
        next hsilent => simp [hsilent, OracleStatus.rank] at hprogress
        next => cases hopen
      · obtain rfl := Option.some.inj (hrecord'.symm.trans hy)
        exact hstate
    have hfinal := final_of_reachable (hreach.trace hx') hrecord' o hresolved
    obtain ⟨k, y, hkj, hy, hreport⟩ := status_reported h hx' hrecord' (by simp [hfinal])
    rw [hfinal] at hreport
    refine ⟨k, y, o, ?_, hkj, hy, hreport⟩
    -- had it come first, progress would not have been accepted
    by_contra hnot
    rcases Nat.lt_or_eq_of_le (Nat.not_lt.mp hnot) with hki | rfl
    · obtain ⟨_, record'', -, -, hrecord'', hlater'⟩ := reported_later hreach hy hx hki hreport
      obtain rfl := Option.some.inj (hrecord.symm.trans hrecord'')
      rcases hlater' with rfl | hlt
      · simp [OracleStatus.rank] at hlow
      · exact absurd (hlt.trans hlow) (by simp [OracleStatus.rank])
    · obtain rfl := Option.some.inj (hx.symm.trans hy)
      have hcommand := hreported.1.symm.trans hreport.1
      simp at hcommand
  · intro i j x x' o hij hx hx' hreported
    obtain ⟨record, record', -, -, hrecord', hlater⟩ := reported_later hreach hx hx' hij hreported
    have hsame : record' = record.setOracleStatus (.final o) := by
      rcases hlater with rfl | hlt
      · rfl
      · exact absurd (Nat.lt_of_lt_of_le hlt (rank_le _)) (by simp [OracleStatus.rank])
    have hstate : record'.state = .resolved o := by rw [hsame]; rfl
    refine ⟨fun status hreport => ?_, fun escrow o' hmem => ?_⟩
    · obtain ⟨y, hy, hmay, -⟩ := (sane_of_reachable (hreach.trace hx')).reported hreport
      obtain rfl := Option.some.inj (hrecord'.symm.trans hy)
      rw [(final_of_reachable (hreach.trace hx') hrecord').not_mayReport hstate] at hmay
      cases hmay
    · rcases (emits_settleIntent (hreach.trace hx')).mp ⟨escrow, hmem⟩ with
        ⟨-, -, y, hy, hunresolved, -⟩ | ⟨-, y, hy, hstate'⟩
      · obtain rfl := Option.some.inj (hrecord'.symm.trans hy)
        rw [hstate] at hunresolved
        cases hunresolved
      · obtain rfl := Option.some.inj (hrecord'.symm.trans hy)
        rw [hstate] at hstate'
        exact (ContractState.resolved.inj hstate').symm
  · intro j x escrow o hx hmem hnone
    rcases (emits_settleIntent (hreach.trace hx)).mp ⟨escrow, hmem⟩ with
      ⟨hvoid, -, record, hrecord, hunresolved, hopen⟩ | ⟨-, record, hrecord, hstate⟩
    · refine ⟨hvoid, record, hrecord, ?_⟩
      rw [config_of_reachable (hreach.trace hx)] at hopen
      unfold Contract.stallExitOpen at hopen
      split at hopen
      next hsilent =>
        refine ⟨hsilent, ?_⟩
        split at hopen
        next stallExit hexit =>
          obtain ⟨-, rfl⟩ := checkedAdd_eq_some.mp hexit
          exact of_decide_eq_true hopen
        next => cases hopen
      next => cases hopen
    · have hfinal := final_of_reachable (hreach.trace hx) hrecord o hstate
      obtain ⟨k, y, hkj, hy, hreport⟩ := status_reported h hx hrecord (by simp [hfinal])
      exact absurd (hfinal ▸ hreport) (hnone k y o hkj hy)

/-- A contract whose oracle reports progress and then a result, with a payment asked for
    in between. -/
def parked : List Input :=
  [⟨.registerContract 0 1000, 0, 8⟩, ⟨.reportOracleStatus 0 .inProgress, 1001, 8⟩,
    ⟨.settleEscrow 0 0, 2000, 8⟩, ⟨.reportOracleStatus 0 (.final .yes), 2001, 8⟩,
    ⟨.settleEscrow 0 0, 2002, 8⟩]

/-- Nothing is paid while the report is outstanding, however late it is. -/
theorem void_route_closes_parked : opening.emitted parked = [.contractResolved 0 .yes,
    .settleIntent 0 0 .yes] ∧ ∀ x, (opening.trace parked)[2]? = some x →
      ∀ o, .settleIntent 0 0 o ∉ x.1.emits x.2 := by
  refine ⟨by decide +kernel, fun x hx o hmem => ?_⟩
  have hnew : Engine.new Config.small = .ok opening := rfl
  obtain ⟨y, hy⟩ : ∃ y, (opening.trace parked)[1]? = some y := ⟨_, rfl⟩
  have hreported : Reported y.1 y.2 0 .inProgress := by
    obtain rfl := Option.some.inj hy
    exact ⟨rfl, by decide +kernel⟩
  obtain ⟨k, -, -, hlow, hhigh, -⟩ :=
    (void_route_closes hnew parked 0).1 1 2 y x 0 o (by decide) hy hx hreported hmem
  omega

end Engine

end RfqSettlement
