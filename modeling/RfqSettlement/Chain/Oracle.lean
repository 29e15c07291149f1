/-
  RfqSettlement.Chain.Oracle

  The mocked optimistic oracle: propose, a challenge window, contestation, finality, and
  an escalation authority that can rule anything (`chain/src/oracle.rs`).

  Operations that read the oracle's clock take the instant they sampled.  Statuses are
  ordered by what may follow what, and `status_le` is that the oracle only climbs.
-/

import RfqSettlement.Core.Reports
import Mathlib.Order.BoundedOrder.Basic

namespace RfqSettlement

-- ============================================================================
-- The order of statuses
-- ============================================================================

/-- A status and whatever it may still become. -/
instance : PartialOrder OracleStatus where
  le s t := s = t ∨ s.rank < t.rank
  le_refl _ := .inl rfl
  le_trans s t u := by
    rintro (rfl | hst) (rfl | htu)
    · exact .inl rfl
    · exact .inr htu
    · exact .inr hst
    · exact .inr (hst.trans htu)
  le_antisymm s t := by
    rintro (rfl | hst) (heq | hts)
    · rfl
    · rfl
    · exact heq.symm
    · exact absurd hst (Nat.lt_asymm hts)

namespace OracleStatus

variable {s t : OracleStatus}

theorem le_iff : s ≤ t ↔ s = t ∨ s.rank < t.rank := Iff.rfl

theorem silent_le (s : OracleStatus) : .silent ≤ s := by
  cases s with
  | silent => exact le_refl _
  | inProgress => exact .inr Nat.zero_lt_one
  | final => exact .inr Nat.zero_lt_two

theorem rank_mono (h : s ≤ t) : s.rank ≤ t.rank := by
  rcases h with rfl | hlt
  · exact Nat.le_refl _
  · exact Nat.le_of_lt hlt

/-- Nothing follows a final status. -/
theorem eq_of_final_le {o : Outcome} (h : .final o ≤ t) : t = .final o := by
  rcases h with heq | hlt
  · exact heq.symm
  · exact absurd hlt (Nat.not_lt.mpr (Engine.rank_le t))

/-- What the engine admits as a report moves its status forwards. -/
theorem mayReport_iff {c : Contract} : c.mayReport s = true ↔ c.oracleStatus < s := by
  rw [Contract.mayReport_iff, lt_iff_le_and_ne (a := c.oracleStatus), le_iff]
  constructor
  · intro hlt
    refine ⟨.inr hlt, ?_⟩
    rintro rfl
    exact Nat.lt_irrefl _ hlt
  · rintro ⟨heq | hlt, hne⟩
    · exact absurd heq hne
    · exact hlt

end OracleStatus

-- ============================================================================
-- The oracle
-- ============================================================================

/-- Why the oracle refused. -/
inductive OracleError where
  | alreadyProposed
  | nothingProposed
  | windowOpen
  | contested
  | alreadyFinal
  | notTheEscalationAuthority
deriving DecidableEq, Repr

/-- What the oracle knows about one contract. -/
inductive Proposal where
  | proposed (outcome : Outcome) (windowCloses : Nat)
  | contested
  | final (outcome : Outcome)
deriving DecidableEq, Repr

structure Oracle where
  challengeWindow : Nat
  /-- A single key that can assign any outcome. -/
  escalationAuthority : Nat
  contracts : Nat → Option Proposal

namespace Oracle

def new (challengeWindow escalationAuthority : Nat) : Oracle :=
  ⟨challengeWindow, escalationAuthority, fun _ => none⟩

/-- `contracts.insert`. -/
def insert (o : Oracle) (contract : Nat) (proposal : Proposal) : Oracle :=
  { o with contracts := Function.update o.contracts contract (some proposal) }

/-- What the engine would be told about a contract. -/
def status (o : Oracle) (contract : Nat) : OracleStatus :=
  match o.contracts contract with
  | none => .silent
  | some (.proposed ..) | some .contested => .inProgress
  | some (.final outcome) => .final outcome

/-- Propose an outcome, opening the challenge window. -/
def propose (o : Oracle) (contract : Nat) (outcome : Outcome) (now : Nat) :
    Except OracleError Nat × Oracle :=
  match o.contracts contract with
  | some (.final _) => (.error .alreadyFinal, o)
  | some (.proposed ..) | some .contested => (.error .alreadyProposed, o)
  | none =>
    match checkedAdd now o.challengeWindow with
    | none => (.error .windowOpen, o)
    | some windowCloses => (.ok windowCloses, o.insert contract (.proposed outcome windowCloses))

/-- Contest a standing proposal. -/
def contest (o : Oracle) (contract : Nat) : Except OracleError Unit × Oracle :=
  match o.contracts contract with
  | some (.proposed ..) => (.ok (), o.insert contract .contested)
  | some .contested => (.ok (), o)
  | some (.final _) => (.error .alreadyFinal, o)
  | none => (.error .nothingProposed, o)

/-- Finalise an uncontested proposal whose window has closed. -/
def finalise (o : Oracle) (contract now : Nat) : Except OracleError Outcome × Oracle :=
  match o.contracts contract with
  | some (.proposed outcome windowCloses) =>
    if now < windowCloses then (.error .windowOpen, o)
    else (.ok outcome, o.insert contract (.final outcome))
  | some .contested => (.error .contested, o)
  | some (.final _) => (.error .alreadyFinal, o)
  | none => (.error .nothingProposed, o)

/-- The escalation authority rules. -/
def escalate (o : Oracle) (contract : Nat) (outcome : Outcome) (who : Nat) :
    Except OracleError Unit × Oracle :=
  if who ≠ o.escalationAuthority then (.error .notTheEscalationAuthority, o)
  else
    match o.contracts contract with
    | some (.final _) => (.error .alreadyFinal, o)
    | _ => (.ok (), o.insert contract (.final outcome))

end Oracle

/-- One operation on the oracle. -/
inductive OracleOp where
  | propose (contract : Nat) (outcome : Outcome) (now : Nat)
  | contest (contract : Nat)
  | finalise (contract now : Nat)
  | escalate (contract : Nat) (outcome : Outcome) (who : Nat)
deriving DecidableEq, Repr

namespace Oracle

variable {o : Oracle} {op : OracleOp} {contract : Nat}

def perform (o : Oracle) : OracleOp → Oracle
  | .propose contract outcome now => (o.propose contract outcome now).2
  | .contest contract => (o.contest contract).2
  | .finalise contract now => (o.finalise contract now).2
  | .escalate contract outcome who => (o.escalate contract outcome who).2

-- ============================================================================
-- What an operation does
-- ============================================================================

/-- The moves of a proposal under `op`. -/
inductive Ruling (authority : Nat) (op : OracleOp) (contract : Nat) :
    Option Proposal → Option Proposal → Prop where
  | same {p : Option Proposal} : Ruling authority op contract p p
  | proposed {outcome : Outcome} {windowCloses : Nat} :
      Ruling authority op contract none (some (.proposed outcome windowCloses))
  | contested {outcome : Outcome} {windowCloses : Nat} :
      Ruling authority op contract (some (.proposed outcome windowCloses)) (some .contested)
  | finalised {outcome : Outcome} {windowCloses : Nat} :
      Ruling authority op contract (some (.proposed outcome windowCloses)) (some (.final outcome))
  | escalated {p : Option Proposal} {outcome : Outcome}
      (hop : op = .escalate contract outcome authority) (hopen : ∀ outcome, p ≠ some (.final outcome)) :
      Ruling authority op contract p (some (.final outcome))

theorem ruling_insert {c : Nat} {proposal : Proposal}
    (h : Ruling o.escalationAuthority op c (o.contracts c) (some proposal)) :
    Ruling o.escalationAuthority op contract (o.contracts contract)
      ((o.insert c proposal).contracts contract) := by
  simp only [insert, Function.update_apply]
  split
  next heq => exact heq ▸ h
  next => exact .same

/-- Every operation. -/
theorem ruling_perform (o : Oracle) (op : OracleOp) (contract : Nat) :
    Ruling o.escalationAuthority op contract (o.contracts contract)
      ((o.perform op).contracts contract) := by
  cases op with
  | propose c outcome now =>
      rw [perform, propose]
      split
      · exact .same
      · exact .same
      · exact .same
      next hnone =>
        split
        · exact .same
        · exact ruling_insert (hnone ▸ .proposed)
  | contest c =>
      rw [perform, contest]
      split
      next hproposed => exact ruling_insert (hproposed ▸ .contested)
      all_goals exact .same
  | finalise c now =>
      rw [perform, finalise]
      split
      next hproposed =>
        split
        · exact .same
        · exact ruling_insert (hproposed ▸ .finalised)
      all_goals exact .same
  | escalate c outcome who =>
      rw [perform, escalate]
      split
      · exact .same
      next hwho =>
        have hwho : who = o.escalationAuthority := by simpa using hwho
        split
        · exact .same
        next hopen => exact ruling_insert (.escalated (by rw [hwho]) hopen)

theorem escalationAuthority_perform : (o.perform op).escalationAuthority = o.escalationAuthority := by
  cases op with
  | propose =>
      rw [perform, propose]
      repeat' split
      all_goals rfl
  | contest =>
      rw [perform, contest]
      split <;> rfl
  | finalise =>
      rw [perform, finalise]
      repeat' split
      all_goals rfl
  | escalate =>
      rw [perform, escalate]
      repeat' split
      all_goals rfl

/-- The oracle only climbs. -/
theorem status_le (o : Oracle) (op : OracleOp) (contract : Nat) :
    o.status contract ≤ (o.perform op).status contract := by
  have hruling := ruling_perform o op contract
  unfold status
  generalize o.contracts contract = before at hruling
  generalize (o.perform op).contracts contract = after at hruling
  cases hruling with
  | same => exact le_refl _
  | proposed => exact .inr Nat.zero_lt_one
  | contested => exact le_refl _
  | finalised => exact .inr Nat.one_lt_two
  | escalated _ hopen =>
      match before, hopen with
      | none, _ => exact OracleStatus.silent_le _
      | some (.proposed ..), _ => exact .inr Nat.one_lt_two
      | some .contested, _ => exact .inr Nat.one_lt_two
      | some (.final ruled), hopen => exact absurd rfl (hopen ruled)

end Oracle

end RfqSettlement
