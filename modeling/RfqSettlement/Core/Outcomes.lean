/-
  RfqSettlement.Core.Outcomes

  What can be known of a contract when a trade forms on it.

  The horizon is about dates alone: an accept comes before the event of every contract
  it is on, so the stall exit of none is open.  What the oracle has reported is not
  looked at, and an outcome it reported early does not stop an accept.
-/

import RfqSettlement.Core.Reports
import RfqSettlement.Core.Refusals
import RfqSettlement.Core.Timing

namespace RfqSettlement

namespace Contract

variable {c : Contract} {now stallGrace : Nat} {o : Outcome}

theorem stallExitOpen_eq_false (h : now ≤ c.eventDate + stallGrace) :
    c.stallExitOpen now stallGrace = false := by
  unfold stallExitOpen
  split
  · split
    next stallExit hexit =>
      obtain ⟨-, rfl⟩ := checkedAdd_eq_some.mp hexit
      exact decide_eq_false (Nat.not_lt.mpr h)
    next => rfl
  · rfl

/-- A final report is recorded as the resolution. -/
def Recorded (c : Contract) : Prop := ∀ o, c.oracleStatus = .final o → c.state = .resolved o

theorem recorded_setOracleStatus {status : OracleStatus} : (c.setOracleStatus status).Recorded := by
  intro o hstatus
  rw [oracleStatus_setOracleStatus] at hstatus
  subst hstatus
  rfl

/-- With the stall exit closed, the outcome is the final one reported. -/
theorem outcome_eq_some_iff (hfinal : c.Final) (hrecorded : c.Recorded)
    (hclosed : c.stallExitOpen now stallGrace = false) :
    c.outcome now stallGrace = some o ↔ c.oracleStatus = .final o := by
  have hstate : c.outcome now stallGrace = some o ↔ c.state = .resolved o := by
    unfold outcome
    rw [hclosed]
    split
    next o' heq => rw [heq, Option.some.injEq, ContractState.resolved.injEq]
    next heq => simp [heq]
  rw [hstate]
  exact ⟨hfinal o, hrecorded o⟩

end Contract

namespace Engine

variable {e : Engine} {config : Config} {now last contract : Nat} {input : Input}
  {inputs : List Input} {r : ReqIdx} {expected : List ExpectedFill} {x : Engine × Input} {j : Nat}
  {record : Contract} {o : Outcome}

theorem recorded_of_reachable (h : Reachable config e)
    (hrecord : e.ledger.contract contract = some record) : record.Recorded := by
  induction h generalizing record with
  | new h =>
      obtain ⟨-, rfl⟩ := new_eq_ok h
      obtain hentry := Option.join_eq_some_iff.mp hrecord
      simp [Ledger.new, List.getElem?_replicate] at hentry
  | step h input ih =>
      have hreports := (sane_of_reachable h).reports_step input contract
      rw [hrecord] at hreports
      generalize hbefore : Ledger.contract _ contract = before at hreports
      cases hreports with
      | same => exact ih hbefore
      | new => intro o hstatus; cases hstatus
      | report hmay => exact Contract.recorded_setOracleStatus

/-- A request that can be accepted is open, and before its deadline. -/
theorem Sane.opened_of_accepted (h : e.Sane) (hcommand : input.command = .acceptRequest r expected)
    (hok : (e.answer input).1 = .ok ()) :
    ∃ y, e.ledger.request r = some y ∧ y.state = .opened ∧ input.now < y.deadline := by
  have hn : Normalised input.now e (e.normalisedFor input) := h.normalised input.command input.now
  have hperforms : Performs (e.normalisedFor input) input.now (.withCapacity input.capacity)
      input.command (e.answer input) :=
    hn.sane.performs input.command input.now (.withCapacity input.capacity)
  rw [hcommand] at hperforms
  generalize e.answer input = answer at hperforms hok
  cases hperforms with
  | refused => cases hok
  | traded hfor hcalm => exact absurd hfor (hcalm r).1
  | @accepted _ _ acc fills w' hchecked haccepted =>
      have ha := Ledger.market_auctions hchecked.record
      have hauctions : (e.normalisedFor input).ledger.market.auctions = e.market.auctions := hn.auctions
      rw [hauctions] at ha
      obtain ⟨y, hy, hsame⟩ := Ledger.request_of_market ha
      refine ⟨y, hy, ?_, ?_⟩
      · exact (congrArg Auction.state hsame).trans hchecked.opened
      · have hdeadline : y.deadline = acc.record.deadline := congrArg Auction.deadline hsame
        exact hdeadline ▸ hchecked.deadline

/-- What is known of a contract when a trade forms on it: its event is still to come, by
    more than a settlement may take, so that nobody has a stall exit; and it has an
    outcome exactly if a final report of one was accepted before. -/
theorem accept_before_event (h : Engine.new config = .ok e)
    (hpaced : Paced (fun _ _ => True) 0 e inputs) (hx : (e.trace inputs)[j]? = some x)
    (hcommand : x.2.command = .acceptRequest r expected) (hok : (x.1.answer x.2).1 = .ok ()) :
    ∃ y, x.1.ledger.request r = some y ∧ ∀ i leg, y.leg i = some leg →
      ∃ record, x.1.ledger.contract leg.contract = some record ∧
        x.2.now + config.maxSettlingTime < record.eventDate ∧
        record.stallExitOpen x.2.now config.stallGrace = false ∧
        (∀ o, record.outcome x.2.now config.stallGrace = some o ↔
          ∃ k z, k < j ∧ (e.trace inputs)[k]? = some z ∧
            Reported z.1 z.2 leg.contract (.final o)) := by
  obtain ⟨last, hlast, hreach, -⟩ := hpaced.trace (.new 0 h) hx
  obtain ⟨y, hy, -, hlive⟩ := hreach.sane.opened_of_accepted hcommand hok
  refine ⟨y, hy, fun i leg hleg => ?_⟩
  have hvalid := hreach.sane.config
  have hconfig := hreach.config_eq
  have htimely := hreach.timely
  have hspec : leg.spec ∈ y.auction.legs := List.mem_map_of_mem (List.mem_of_getElem? hleg)
  obtain ⟨record, hrecord, hhorizon⟩ := htimely.horizon r _ (Ledger.market_auctions hy) _ hspec
  have hbefore : x.2.now + config.maxSettlingTime < record.eventDate := by
    have hwindow := hvalid.horizon
    rw [hconfig] at hhorizon hwindow
    have hdeadline : y.auction.deadline = y.deadline := rfl
    omega
  have hclosed : record.stallExitOpen x.2.now config.stallGrace = false :=
    Contract.stallExitOpen_eq_false (by omega)
  refine ⟨record, hrecord, hbefore, hclosed, fun o => ?_⟩
  rw [Contract.outcome_eq_some_iff (final_of_reachable hreach.reachable hrecord)
    (recorded_of_reachable hreach.reachable hrecord) hclosed]
  constructor
  · intro hfinal
    obtain ⟨k, z, hk, hz, hreported⟩ := status_reported h hx hrecord (by simp [hfinal])
    exact ⟨k, z, hk, hz, hfinal ▸ hreported⟩
  · rintro ⟨k, z, hk, hz, hreported⟩
    obtain ⟨before, record', -, -, hrecord', hlater⟩ := reported_later (.new h) hz hx hk hreported
    obtain rfl := Option.some.inj (hrecord.symm.trans hrecord')
    rcases hlater with rfl | hlt
    · exact Contract.oracleStatus_setOracleStatus
    · exact absurd (Nat.lt_of_lt_of_le hlt (rank_le _)) (by simp [OracleStatus.rank])

/-- The trade of the standing venue, its contract resolved just before. -/
def foregone : List Input :=
  standingInputs ++ [⟨.reportOracleStatus 0 (.final .yes), 2, 8⟩,
    ⟨.acceptRequest ⟨0, 0⟩ [⟨0, 600000⟩], 3, 9⟩]

theorem paced_foregone : Paced (fun _ _ => True) 0 opening foregone := by
  simp [Paced, foregone, standingInputs]

theorem foregone_accepted : (opening.trace foregone)[6]? =
    some (opening.run (foregone.take 6), ⟨.acceptRequest ⟨0, 0⟩ [⟨0, 600000⟩], 3, 9⟩) :=
  trace_getElem.mpr ⟨rfl, rfl⟩

/-- The leg of that trade. -/
def foregoneLeg : Leg := ⟨0, .yes, 2, 900000, some 0, 1, some 600000⟩

theorem accept_before_event_foregone : ∃ k z, k < 6 ∧ (opening.trace foregone)[k]? = some z ∧
    Reported z.1 z.2 0 (.final .yes) := by
  have hnew : Engine.new Config.small = .ok opening := rfl
  obtain ⟨y, hy, hlegs⟩ := accept_before_event hnew paced_foregone foregone_accepted rfl
    (by decide +kernel)
  have hstored : (opening.run (foregone.take 6)).ledger.request ⟨0, 0⟩ =
      some ⟨0, 50, .opened, [foregoneLeg], some ⟨0, 0⟩, none⟩ := by decide +kernel
  obtain rfl := Option.some.inj (hstored.symm.trans hy)
  obtain ⟨record, hrecord, -, -, hreported⟩ := hlegs 0 foregoneLeg rfl
  have hresolved : (opening.run (foregone.take 6)).ledger.contract 0 =
      some ⟨1000, .resolved .yes, .final .yes⟩ := by decide +kernel
  obtain rfl := Option.some.inj (hresolved.symm.trans hrecord)
  exact (hreported .yes).mp rfl

/-- The contract is resolved, and the trade forms. -/
theorem accepted_after_resolution :
    ¬ ∀ (config : Config) (e : Engine) (inputs : List Input) (j : Nat) (x : Engine × Input)
      (r : ReqIdx) (expected : List ExpectedFill) (y : Request) (i : Nat) (leg : Leg)
      (record : Contract), Engine.new config = .ok e → Paced (fun _ _ => True) 0 e inputs →
        (e.trace inputs)[j]? = some x → x.2.command = .acceptRequest r expected →
        (x.1.answer x.2).1 = .ok () → x.1.ledger.request r = some y → y.leg i = some leg →
        x.1.ledger.contract leg.contract = some record →
          record.outcome x.2.now config.stallGrace = none := by
  intro hnever
  have hnone := hnever Config.small opening foregone 6 _ ⟨0, 0⟩ [⟨0, 600000⟩]
    ⟨0, 50, .opened, [foregoneLeg], some ⟨0, 0⟩, none⟩ 0 foregoneLeg ⟨1000, .resolved .yes, .final .yes⟩
    rfl paced_foregone foregone_accepted rfl (by decide +kernel) (by decide +kernel) rfl
    (by decide +kernel)
  cases hnone

end Engine

end RfqSettlement
