/-
  RfqSettlement.Chain.Challenge

  What the challenge window is worth.

  Finalising reads the clock and contesting does not.  So a proposal that outlived its
  window is decided by whichever comes first: `unblocked_iff` says that exactly.
-/

import RfqSettlement.Chain.Oracle

namespace RfqSettlement

/-- What an operation reads the oracle's clock as. -/
def OracleOp.instant : OracleOp → Option Nat
  | .propose _ _ now | .finalise _ now => some now
  | .contest _ | .escalate .. => none

namespace Oracle

variable {o : Oracle} {op : OracleOp} {ops before after : List OracleOp} {contract closes now : Nat}
  {outcome : Outcome}

def run (o : Oracle) (ops : List OracleOp) : Oracle := ops.foldl perform o

/-- Readings that never go back, from `now` on. -/
def Paced : Nat → List OracleOp → Prop
  | _, [] => True
  | now, op :: ops => now ≤ op.instant.getD now ∧ Paced (op.instant.getD now) ops

theorem Paced.le {n : Nat} (h : Paced now ops) (hop : op ∈ ops) (hinstant : op.instant = some n) :
    now ≤ n := by
  induction ops generalizing now with
  | nil => cases hop
  | cons first ops ih =>
      obtain ⟨hle, hrest⟩ := h
      rcases List.mem_cons.mp hop with rfl | hop
      · simpa [hinstant] using hle
      · exact hle.trans (ih hrest hop)

-- ============================================================================
-- A proposal past its window
-- ============================================================================

/-- Whatever comes of `ops`, no contest of the contract succeeds, and the next to finalise
    it is told `outcome`. -/
structure Unblocked (o : Oracle) (contract : Nat) (outcome : Outcome) (ops : List OracleOp) : Prop where
  contests : ∀ before after, ops = before ++ .contest contract :: after →
    ((o.run before).contest contract).1 ≠ .ok ()
  finalises : ∀ before now after, ops = before ++ .finalise contract now :: after →
    (∀ n, .finalise contract n ∉ before) → ((o.run before).finalise contract now).1 = .ok outcome

theorem contracts_insert_ne {c : Nat} {proposal : Proposal} (hne : c ≠ contract) :
    (o.insert c proposal).contracts contract = o.contracts contract :=
  Function.update_of_ne hne.symm _ _

/-- Only a contest, its finalisation and a ruling end a proposal. -/
theorem stands_perform (hproposed : o.contracts contract = some (.proposed outcome closes))
    (hcontest : op ≠ .contest contract) (hfinalise : ∀ n, op ≠ .finalise contract n)
    (hruling : ∀ ruled, op ≠ .escalate contract ruled o.escalationAuthority) :
    (o.perform op).contracts contract = some (.proposed outcome closes) := by
  cases op with
  | propose c proposed now =>
      rw [perform, propose]
      split
      · exact hproposed
      · exact hproposed
      · exact hproposed
      next hnone =>
        have hne : c ≠ contract := by
          rintro rfl
          rw [hproposed] at hnone
          cases hnone
        split
        · exact hproposed
        · exact (contracts_insert_ne hne).trans hproposed
  | contest c =>
      have hne : c ≠ contract := fun heq => hcontest (by rw [heq])
      rw [perform, contest]
      split
      · exact (contracts_insert_ne hne).trans hproposed
      all_goals exact hproposed
  | finalise c n =>
      have hne : c ≠ contract := fun heq => hfinalise n (by rw [heq])
      rw [perform, finalise]
      split
      · split
        · exact hproposed
        · exact (contracts_insert_ne hne).trans hproposed
      all_goals exact hproposed
  | escalate c ruled who =>
      rw [perform, escalate]
      split
      · exact hproposed
      next hwho =>
        have hne : c ≠ contract := by
          rintro rfl
          exact hruling ruled (by rw [Classical.not_not.mp hwho])
        split
        · exact hproposed
        · exact (contracts_insert_ne hne).trans hproposed

theorem stands_run (hproposed : o.contracts contract = some (.proposed outcome closes))
    (hcontest : .contest contract ∉ ops) (hfinalise : ∀ n, .finalise contract n ∉ ops)
    (hruling : ∀ ruled, .escalate contract ruled o.escalationAuthority ∉ ops) :
    (o.run ops).contracts contract = some (.proposed outcome closes) := by
  induction ops generalizing o with
  | nil => exact hproposed
  | cons op ops ih =>
      simp only [List.mem_cons, not_or] at hcontest hfinalise hruling
      refine ih ?_ hcontest.2 (fun n => (hfinalise n).2) fun ruled => ?_
      · exact stands_perform hproposed (Ne.symm hcontest.1) (fun n => Ne.symm (hfinalise n).1)
          fun ruled => Ne.symm (hruling ruled).1
      · rw [escalationAuthority_perform]
        exact (hruling ruled).2

theorem status_le_run (o : Oracle) (ops : List OracleOp) (contract : Nat) :
    o.status contract ≤ (o.run ops).status contract := by
  induction ops generalizing o with
  | nil => exact le_refl _
  | cons op ops ih => exact (o.status_le op contract).trans (ih _)

theorem finalise_closed (hproposed : o.contracts contract = some (.proposed outcome closes))
    (hclosed : closes ≤ now) :
    o.finalise contract now = (.ok outcome, o.insert contract (.final outcome)) := by
  rw [finalise, hproposed]
  exact if_neg (Nat.not_lt.mpr hclosed)

/-- Nothing final is contested. -/
theorem contest_final (hfinal : o.status contract = .final outcome) :
    (o.contest contract).1 = .error .alreadyFinal := by
  unfold status at hfinal
  unfold contest
  split at hfinal
  · cases hfinal
  · cases hfinal
  · cases hfinal
  next heq => rw [heq]

/-- The first operation of a kind. -/
theorem exists_first {P : OracleOp → Prop} (hop : op ∈ ops) (hP : P op) :
    ∃ before first after, ops = before ++ first :: after ∧ P first ∧ ∀ x ∈ before, ¬ P x := by
  induction ops with
  | nil => cases hop
  | cons x ops ih =>
      by_cases hx : P x
      · exact ⟨[], x, ops, rfl, hx, by simp⟩
      · have hrest : op ∈ ops := (List.mem_cons.mp hop).resolve_left fun heq => hx (heq ▸ hP)
        obtain ⟨before, first, after, rfl, hfirst, hbefore⟩ := ih hrest
        refine ⟨x :: before, first, after, rfl, hfirst, fun y hy => ?_⟩
        rcases List.mem_cons.mp hy with rfl | hy
        · exact hx
        · exact hbefore y hy

/-- A proposal that outlived its window cannot be blocked if and only if whatever contests
    it comes after it was finalised. -/
theorem unblocked_iff (hproposed : o.contracts contract = some (.proposed outcome closes))
    (hclosed : closes ≤ now) (hpaced : Paced now ops)
    (hruling : ∀ ruled, .escalate contract ruled o.escalationAuthority ∉ ops) :
    o.Unblocked contract outcome ops ↔
      ∀ before after, ops = before ++ .contest contract :: after →
        ∃ n, .finalise contract n ∈ before := by
  have hunruled : ∀ {before after : List OracleOp}, ops = before ++ after →
      ∀ ruled, .escalate contract ruled o.escalationAuthority ∉ before := fun heq ruled hmem =>
    hruling ruled (heq ▸ List.mem_append_left _ hmem)
  constructor
  · rintro hunblocked before after heq
    by_contra hnone
    -- the first contest of all finds the proposal standing
    have hmem : OracleOp.contest contract ∈ before ++ [.contest contract] :=
      List.mem_append_right _ (List.mem_singleton_self _)
    obtain ⟨first, rest, heq', hfirst⟩ := List.eq_append_cons_of_mem hmem
    have hops : ops = first ++ .contest contract :: (rest ++ after) := by
      rw [heq, ← List.singleton_append, ← List.append_assoc, heq', List.append_assoc, List.cons_append]
    have hunfinalised : ∀ n, .finalise contract n ∉ first := by
      intro n hmem
      have hmem : .finalise contract n ∈ before ++ [.contest contract] :=
        heq' ▸ List.mem_append_left _ hmem
      refine hnone ⟨n, (List.mem_append.mp hmem).resolve_right fun hmem => ?_⟩
      cases List.mem_singleton.mp hmem
    have hstands := stands_run hproposed hfirst hunfinalised (hunruled hops)
    refine hunblocked.contests first _ hops ?_
    rw [contest, hstands]
  · intro hafter
    -- up to the first finalisation nothing is contested
    have hquiet : ∀ {before rest : List OracleOp}, ops = before ++ rest →
        (∀ n, .finalise contract n ∉ before) → .contest contract ∉ before := by
      intro before rest heq hnone hmem
      obtain ⟨first, second, rfl⟩ := List.append_of_mem hmem
      obtain ⟨n, hn⟩ := hafter first (second ++ rest) (by simp [heq])
      exact hnone n (List.mem_append_left _ hn)
    have hfinalises : ∀ before n after, ops = before ++ .finalise contract n :: after →
        (∀ m, .finalise contract m ∉ before) →
          (o.run before).finalise contract n =
            (.ok outcome, (o.run before).insert contract (.final outcome)) := by
      intro before n after heq hnone
      have hstands := stands_run hproposed (hquiet heq hnone) hnone (hunruled heq)
      have hmem : .finalise contract n ∈ ops := heq ▸ List.mem_append_right _ List.mem_cons_self
      exact finalise_closed hstands (hclosed.trans (hpaced.le hmem rfl))
    refine ⟨fun before after heq => ?_, fun before n after heq hnone => ?_⟩
    · obtain ⟨n, hn⟩ := hafter before after heq
      obtain ⟨first, op, rest, rfl, ⟨m, rfl⟩, hfirst⟩ :=
        exists_first (P := fun op => ∃ m, op = .finalise contract m) hn ⟨n, rfl⟩
      have hdone := hfinalises first m (rest ++ .contest contract :: after) (by simp [heq])
        fun k hk => hfirst _ hk ⟨k, rfl⟩
      have hfinal : ((o.run first).perform (.finalise contract m)).status contract = .final outcome := by
        rw [perform, hdone]
        simp [status, insert]
      have hstays := status_le_run ((o.run first).perform (.finalise contract m)) rest contract
      rw [hfinal] at hstays
      have hrun : o.run (first ++ .finalise contract m :: rest) =
          ((o.run first).perform (.finalise contract m)).run rest := by
        simp [run]
      rw [hrun, contest_final (OracleStatus.eq_of_final_le hstays)]
      simp
    · rw [hfinalises before n after heq hnone]

/-- Proposed at zero with a window of ten. -/
def proposal : Oracle := (new 10 3).perform (.propose 0 .yes 0)

theorem unblocked_iff_finalised :
    proposal.Unblocked 0 .yes [.finalise 0 20, .contest 0, .escalate 0 .no 1] := by
  refine (unblocked_iff (show proposal.contracts 0 = some (.proposed .yes 10) by decide)
    (show 10 ≤ 20 by decide) (by simp [Paced, OracleOp.instant])
    (fun ruled => by rw [show proposal.escalationAuthority = 3 from rfl]; simp)).mpr ?_
  intro before after heq
  match before, heq with
  | op :: before, heq =>
      obtain ⟨rfl, -⟩ := List.cons.inj heq
      exact ⟨20, List.mem_cons_self⟩

/-- Long after its window a proposal is contested, and never finalises. -/
theorem contested_past_its_window :
    ¬ ∀ (window authority contract closes now : Nat) (outcome : Outcome) (first ops : List OracleOp),
      Paced 0 first → (∀ op ∈ first, ∀ n, op.instant = some n → n ≤ now) →
      ((new window authority).run first).contracts contract = some (.proposed outcome closes) →
      closes ≤ now → Paced now ops → (∀ ruled, .escalate contract ruled authority ∉ ops) →
      ((new window authority).run first).Unblocked contract outcome ops := by
  intro hall
  have hunblocked := hall 10 3 0 10 20 .yes [.propose 0 .yes 0] [.contest 0, .finalise 0 20]
    (by simp [Paced]) (by simp [OracleOp.instant]) (by decide) (by decide)
    (by simp [Paced, OracleOp.instant]) (by simp)
  exact hunblocked.contests [] _ rfl (by decide)

end Oracle

end RfqSettlement
