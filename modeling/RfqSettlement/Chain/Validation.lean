/-
  RfqSettlement.Chain.Validation

  What custody's checks establish about a bundle that passes them: the table of
  debits holds, for every account, exactly what the bundle's escrows take from it,
  and each account named holds as much.
-/

import RfqSettlement.Chain.Custody

namespace RfqSettlement

/-- What an escrow took from one account. -/
def Escrow.contributionOf (e : Escrow) (account : Nat) : Nat :=
  (if e.maker = account then e.makerContribution else 0) +
    if e.requester = account then e.requesterContribution else 0

/-- What an escrow took in all, without saturation. -/
def Escrow.stake (e : Escrow) : Nat := e.requesterContribution + e.makerContribution

/-- Both contributions of a leg fit in 64 bits. -/
def BundleLeg.Priced (leg : BundleLeg) : Prop :=
  ∃ maker requester, leg.makerContribution = some maker ∧ leg.requesterContribution = some requester

namespace Bundle

/-- The escrows a bundle forms. -/
def escrows (bundle : Bundle) : List Escrow :=
  bundle.legs.map (CustodyLedger.escrowOf bundle.requester)

/-- What the escrows of a bundle take from one account. -/
def due (bundle : Bundle) (account : Nat) : Nat :=
  (bundle.escrows.map fun e => e.contributionOf account).sum

end Bundle

namespace CustodyLedger

variable {l : CustodyLedger} {account amount now : Nat} {b : Balance}

theorem balance_of_account (h : l.account account = some b) : l.balance account = b.balance := by
  simp [balance, h]

-- ============================================================================
-- Debits
-- ============================================================================

/-- What a table of debits takes from one account. -/
def Debits.of (debits : Debits) (account : Nat) : Nat :=
  (debits.map fun x => if x.1 = account then x.2 else 0).sum

/-- The accounts a table of debits names. -/
def Debits.accounts (debits : Debits) : List Nat := debits.map Prod.fst

/-- What a table of debits takes in all. -/
def Debits.total (debits : Debits) : Nat := (debits.map Prod.snd).sum

/-- `debits'` is `debits` with `amount` more for `account`. -/
structure Debits.Added (debits : Debits) (account amount : Nat) (debits' : Debits) : Prop where
  of : ∀ c, debits'.of c = debits.of c + if account = c then amount else 0
  total : debits'.total = debits.total + amount
  mem : ∀ c, c ∈ debits'.accounts ↔ c ∈ debits.accounts ∨ c = account
  nodup : debits.accounts.Nodup → debits'.accounts.Nodup
  bounded : (∀ x ∈ debits, x.2 ≤ u64Max) → amount ≤ u64Max → ∀ x ∈ debits', x.2 ≤ u64Max
  length : debits'.length = debits.length + if account ∈ debits.accounts then 0 else 1

theorem Debits.go_added {slots : Nat} {debits debits' : Debits}
    (h : Debits.add.go account amount slots debits = some debits') :
    debits.Added account amount debits' := by
  induction debits generalizing slots debits' with
  | nil =>
      cases slots with
      | zero => cases h
      | succ slots =>
          obtain rfl := Option.some.inj h
          refine ⟨fun c => by simp [Debits.of], by simp [Debits.total], fun c => ?_,
            by simp [Debits.accounts], ?_, by simp [Debits.accounts]⟩
          · simp [Debits.accounts]
          · intro _ hamount x hx
            rw [List.mem_singleton.mp hx]
            exact hamount
  | cons x debits ih =>
      obtain ⟨existing, total⟩ := x
      cases slots with
      | zero => cases h
      | succ slots =>
          simp only [Debits.add.go] at h
          split at h
          next heq =>
            subst heq
            obtain ⟨sum, hsum, rfl⟩ := Option.map_eq_some_iff.mp h
            obtain ⟨hfits, rfl⟩ := checkedAdd_eq_some.mp hsum
            refine ⟨fun c => ?_, ?_, fun c => ?_, id, ?_, by simp [Debits.accounts]⟩
            · simp only [Debits.of, List.map_cons, List.sum_cons]
              split <;> omega
            · simp only [Debits.total, List.map_cons, List.sum_cons]
              omega
            · simp only [Debits.accounts, List.map_cons, List.mem_cons]
              tauto
            · intro hall _ y hy
              rcases List.mem_cons.mp hy with rfl | hy
              · exact hfits
              · exact hall y (by simp [hy])
          next hne =>
            obtain ⟨rest, hrest, rfl⟩ := Option.map_eq_some_iff.mp h
            have hadded := ih hrest
            refine ⟨fun c => ?_, ?_, fun c => ?_, fun hnodup => ?_, fun hall hamount y hy => ?_, ?_⟩
            · have := hadded.of c
              simp only [Debits.of, List.map_cons, List.sum_cons] at this ⊢
              omega
            · have := hadded.total
              simp only [Debits.total, List.map_cons, List.sum_cons] at this ⊢
              omega
            · have := hadded.mem c
              simp only [Debits.accounts, List.map_cons, List.mem_cons] at this ⊢
              tauto
            · obtain ⟨hnot, hnodup⟩ := List.nodup_cons.mp hnodup
              refine List.nodup_cons.mpr ⟨fun hmem => ?_, hadded.nodup hnodup⟩
              rcases (hadded.mem existing).mp hmem with hmem | heq
              · exact hnot hmem
              · exact hne heq
            · rcases List.mem_cons.mp hy with rfl | hy
              · exact hall _ (by simp)
              · exact hadded.bounded (fun z hz => hall z (by simp [hz])) hamount y hy
            · have hmem : account ∈ Debits.accounts ((existing, total) :: debits) ↔
                  account ∈ Debits.accounts debits := by
                simp [Debits.accounts, Ne.symm hne]
              have := hadded.length
              simp only [List.length_cons, hmem]
              omega

theorem Debits.added_of_add {debits debits' : Debits}
    (h : debits.add account amount = some debits') : debits.Added account amount debits' :=
  go_added h

-- ============================================================================
-- Validation
-- ============================================================================

/-- The accumulation over the legs, from a table already filled. -/
structure LegsChecked (requester now : Nat) (legs : List BundleLeg) (debits debits' : Debits) :
    Prop where
  alive : ∀ leg ∈ legs, now < leg.quoteExpiry
  priced : ∀ leg ∈ legs, leg.Priced
  of : ∀ a, debits'.of a =
    debits.of a + ((legs.map (escrowOf requester)).map fun e => e.contributionOf a).sum
  total : debits'.total = debits.total + ((legs.map (escrowOf requester)).map Escrow.stake).sum
  mem : ∀ a, a ∈ debits'.accounts ↔
    a ∈ debits.accounts ∨ legs ≠ [] ∧ a = requester ∨ ∃ leg ∈ legs, a = leg.maker
  nodup : debits.accounts.Nodup → debits'.accounts.Nodup

theorem validateLegs_ok {requester : Nat} {legs : List (BundleLeg × Nat)} {debits debits' : Debits}
    (h : validateLegs requester now legs debits = .ok debits') :
    LegsChecked requester now (legs.map Prod.fst) debits debits' := by
  induction legs generalizing debits with
  | nil =>
      rw [validateLegs, Except.ok.injEq] at h
      subst h
      exact ⟨by simp, by simp, by simp, by simp, by simp, id⟩
  | cons x legs ih =>
      obtain ⟨leg, index⟩ := x
      rw [validateLegs] at h
      split at h
      · cases h
      next halive =>
      split at h
      · cases h
      next maker hmaker =>
      split at h
      · cases h
      next contribution hcontribution =>
      split at h
      · cases h
      next debits₂ hadd =>
      obtain ⟨debits₁, hadd₁, hadd₂⟩ := Option.bind_eq_some_iff.mp hadd
      have h₁ := Debits.added_of_add hadd₁
      have h₂ := Debits.added_of_add hadd₂
      have hrest := ih h
      have hescrow : escrowOf requester leg =
          Escrow.lock leg.contract leg.side leg.size requester leg.maker contribution maker := by
        simp [escrowOf, hmaker, hcontribution]
      refine ⟨?_, ?_, fun a => ?_, ?_, fun a => ?_, fun hnodup => hrest.nodup (h₂.nodup (h₁.nodup hnodup))⟩
      · intro y hy
        rcases List.mem_cons.mp hy with rfl | hy
        · exact Nat.not_le.mp halive
        · exact hrest.alive y hy
      · intro y hy
        rcases List.mem_cons.mp hy with rfl | hy
        · exact ⟨_, _, hmaker, hcontribution⟩
        · exact hrest.priced y hy
      · rw [hrest.of, h₂.of, h₁.of]
        simp only [List.map_cons, List.sum_cons, hescrow, Escrow.contributionOf, Escrow.lock]
        omega
      · rw [hrest.total, h₂.total, h₁.total]
        simp only [List.map_cons, List.sum_cons, hescrow, Escrow.stake, Escrow.lock]
        omega
      · rw [hrest.mem, h₂.mem, h₁.mem]
        simp only [List.map_cons, ne_eq, reduceCtorEq, not_false_eq_true, true_and,
          List.mem_cons, exists_eq_or_imp]
        tauto

/-- An addition that fits goes through, in a table with a slot to spare. -/
theorem Debits.go_fits {slots : Nat} {debits : Debits}
    (hslot : account ∈ debits.accounts ∧ debits.length ≤ slots ∨ debits.length < slots)
    (hfits : debits.of account + amount ≤ u64Max) :
    ∃ debits', Debits.add.go account amount slots debits = some debits' := by
  induction debits generalizing slots with
  | nil =>
      cases slots with
      | zero =>
          rcases hslot with ⟨hmem, -⟩ | hlt
          · cases hmem
          · exact absurd hlt (Nat.lt_irrefl 0)
      | succ slots => exact ⟨_, rfl⟩
  | cons x debits ih =>
      obtain ⟨existing, total⟩ := x
      simp only [Debits.of, List.map_cons, List.sum_cons] at hfits
      simp only [List.length_cons] at hslot
      cases slots with
      | zero => omega
      | succ slots =>
          simp only [Debits.add.go]
          split
          next heq =>
            rw [if_pos heq] at hfits
            exact ⟨_, by rw [checkedAdd_eq_some.mpr ⟨by omega, rfl⟩]; rfl⟩
          next hne =>
            have hslot' : account ∈ Debits.accounts debits ∧ debits.length ≤ slots ∨
                debits.length < slots := by
              rcases hslot with ⟨hmem, hle⟩ | hlt
              · rcases List.mem_cons.mp hmem with heq | hmem
                · exact absurd heq.symm hne
                · exact .inl ⟨hmem, by omega⟩
              · exact .inr (by omega)
            obtain ⟨rest, hrest⟩ := ih hslot' (by simp only [Debits.of]; omega)
            exact ⟨_, by rw [hrest]; rfl⟩

theorem Debits.add_fits (debits : Debits) (account amount : Nat)
    (hslot : account ∈ debits.accounts ∧ debits.length ≤ MAX_LEGS + 1 ∨ debits.length < MAX_LEGS + 1)
    (hfits : debits.of account + amount ≤ u64Max) :
    ∃ debits', debits.add account amount = some debits' :=
  go_fits hslot hfits

/-- What is left of the table's slots once the requester has one. -/
def Debits.slots (debits : Debits) (requester : Nat) : Nat :=
  debits.length + if requester ∈ debits.accounts then 0 else 1

/-- A bundle whose legs can be priced and whose sums fit is only ever stopped by the
    clock. -/
theorem validateLegs_fits (requester now : Nat) {legs : List (BundleLeg × Nat)} {debits : Debits}
    (hpriced : ∀ x ∈ legs, x.1.Priced)
    (hslots : debits.slots requester + legs.length ≤ MAX_LEGS + 1)
    (hfits : ∀ a, debits.of a + (((legs.map Prod.fst).map (escrowOf requester)).map
      fun e => e.contributionOf a).sum ≤ u64Max) :
    (∃ debits', validateLegs requester now legs debits = .ok debits') ∨
      ∃ leg, validateLegs requester now legs debits = .error (.quoteExpired leg) := by
  induction legs generalizing debits with
  | nil => exact .inl ⟨debits, rfl⟩
  | cons x legs ih =>
      obtain ⟨leg, index⟩ := x
      obtain ⟨maker, contribution, hmaker, hcontribution⟩ := hpriced (leg, index) (by simp)
      have hescrow : escrowOf requester leg =
          Escrow.lock leg.contract leg.side leg.size requester leg.maker contribution maker := by
        simp [escrowOf, hmaker, hcontribution]
      have hfits : ∀ a, debits.of a + ((if leg.maker = a then maker else 0) +
          (if requester = a then contribution else 0) +
            (((legs.map Prod.fst).map (escrowOf requester)).map fun e => e.contributionOf a).sum) ≤
              u64Max := by
        intro a
        have := hfits a
        simp only [List.map_cons, List.sum_cons, hescrow] at this
        exact this
      simp only [Debits.slots, List.length_cons] at hslots
      rw [validateLegs]
      split
      · exact .inr ⟨_, rfl⟩
      obtain ⟨debits₁, hadd₁⟩ := debits.add_fits leg.maker maker
        (.inr (by split at hslots <;> omega))
        (by have := hfits leg.maker; rw [if_pos rfl] at this; omega)
      have h₁ := Debits.added_of_add hadd₁
      have hlen₁ := h₁.length
      have hgrown : debits₁.length ≤ debits.length + 1 := by
        rw [hlen₁]
        split <;> omega
      have hslot₂ : requester ∈ debits₁.accounts ∧ debits₁.length ≤ MAX_LEGS + 1 ∨
          debits₁.length < MAX_LEGS + 1 := by
        by_cases hmem : requester ∈ debits₁.accounts
        · exact .inl ⟨hmem, by split at hslots <;> omega⟩
        · have hnot : requester ∉ debits.accounts := fun h => hmem ((h₁.mem _).mpr (.inl h))
          rw [if_neg hnot] at hslots
          exact .inr (by omega)
      have hfits₂ : debits₁.of requester + contribution ≤ u64Max := by
        have := hfits requester
        rw [if_pos (rfl : requester = requester)] at this
        rw [h₁.of]
        omega
      obtain ⟨debits₂, hadd₂⟩ := debits₁.add_fits requester contribution hslot₂ hfits₂
      have h₂ := Debits.added_of_add hadd₂
      have hlen₂ := h₂.length
      have hadd : (debits.add leg.maker maker).bind (fun debits => debits.add requester contribution) =
          some debits₂ := by
        rw [hadd₁]
        exact hadd₂
      rw [hmaker, hcontribution]
      simp only [hadd]
      refine ih (fun y hy => hpriced y (by simp [hy])) ?_ fun a => ?_
      · have hmem₂ : requester ∈ debits₂.accounts := (h₂.mem _).mpr (.inr rfl)
        rw [Debits.slots, if_pos hmem₂]
        by_cases hmem : requester ∈ debits.accounts
        · have hmem₁ : requester ∈ debits₁.accounts := (h₁.mem _).mpr (.inl hmem)
          rw [if_pos hmem] at hslots
          rw [if_pos hmem₁] at hlen₂
          omega
        · rw [if_neg hmem] at hslots
          have : debits₂.length ≤ debits₁.length + 1 := by
            rw [hlen₂]
            split <;> omega
          omega
      · have := hfits a
        rw [h₂.of, h₁.of]
        omega

theorem validateDebits_ok {debits : Debits} :
    l.validateDebits debits = .ok () ↔
      ∀ x ∈ debits, ∃ b, l.account x.1 = some b ∧ x.2 ≤ b.balance := by
  induction debits with
  | nil => simp [validateDebits]
  | cons x debits ih =>
      obtain ⟨account, amount⟩ := x
      simp only [validateDebits, List.forall_mem_cons]
      cases hb : l.account account with
      | none => simp
      | some b =>
          simp only [Option.isNone_some, Bool.false_eq_true, if_false, balance_of_account hb,
            Option.some.injEq, exists_eq_left']
          by_cases hle : b.balance < amount
          · simp [hle, Nat.not_le.mpr hle]
          · simp [hle, Nat.not_lt.mp hle, ih]

/-- What a bundle that passes every check is. -/
structure Validated (l : CustodyLedger) (bundle : Bundle) (now : Nat) (debits : Debits) : Prop where
  nonempty : bundle.legs ≠ []
  few : bundle.legs.length ≤ MAX_LEGS
  unused : l.nonceUsed bundle.nonce = false
  legs : LegsChecked bundle.requester now bundle.legs [] debits
  covered : ∀ x ∈ debits, ∃ b, l.account x.1 = some b ∧ x.2 ≤ b.balance

theorem validate_ok {bundle : Bundle} {debits : Debits} (h : l.validate bundle now = .ok debits) :
    l.Validated bundle now debits := by
  unfold validate at h
  split at h
  · cases h
  next hsome =>
  split at h
  · cases h
  next hfew =>
  split at h
  · cases h
  next hused =>
  split at h
  · cases h
  next debits' hlegs =>
  split at h
  · cases h
  next hcovered =>
  obtain rfl := Except.ok.inj h
  have hchecked := validateLegs_ok hlegs
  rw [List.zipIdx_map_fst] at hchecked
  refine ⟨fun hnil => hsome (by simp [hnil]), Nat.not_lt.mp hfew, by simpa using hused, hchecked,
    validateDebits_ok.mp hcovered⟩

end CustodyLedger

-- ============================================================================
-- Payable bundles
-- ============================================================================

/-- A bundle whose amounts can all be represented. -/
structure Bundle.Payable (bundle : Bundle) : Prop where
  nonempty : bundle.legs ≠ []
  few : bundle.legs.length ≤ MAX_LEGS
  priced : ∀ leg ∈ bundle.legs, leg.Priced
  fits : ∀ a, bundle.due a ≤ u64Max

namespace CustodyLedger

/-- Only time stops its legs; what they come to is what its escrows take. -/
theorem validateLegs_of_payable {bundle : Bundle} (h : bundle.Payable) (now : Nat) :
    (∃ debits, validateLegs bundle.requester now bundle.legs.zipIdx [] = .ok debits ∧
        ∀ a, debits.of a = bundle.due a) ∨
      ∃ leg, validateLegs bundle.requester now bundle.legs.zipIdx [] = .error (.quoteExpired leg) := by
  have hmap : bundle.legs.zipIdx.map Prod.fst = bundle.legs := List.zipIdx_map_fst _ _
  have hlen : bundle.legs.zipIdx.length = bundle.legs.length := List.length_zipIdx
  have hslots : Debits.slots [] bundle.requester + bundle.legs.zipIdx.length ≤ MAX_LEGS + 1 := by
    have := h.few
    have hone : Debits.slots [] bundle.requester = 1 := rfl
    omega
  rcases validateLegs_fits bundle.requester now
    (fun x hx => h.priced x.1 (hmap ▸ List.mem_map_of_mem hx)) hslots (fun a => by
      rw [hmap]
      have := h.fits a
      simp only [Bundle.due, Bundle.escrows] at this
      simpa [Debits.of] using this) with ⟨debits, hdebits⟩ | hexpired
  · have hchecked := validateLegs_ok hdebits
    rw [hmap] at hchecked
    refine .inl ⟨debits, hdebits, fun a => ?_⟩
    rw [hchecked.of]
    simp [Debits.of, Bundle.due, Bundle.escrows]
  · exact .inr hexpired

/-- What custody may answer to a payable bundle. -/
theorem validate_of_payable {bundle : Bundle} (h : bundle.Payable) (l : CustodyLedger) (now : Nat) :
    (∃ debits, l.validate bundle now = .ok debits ∧ ∀ a, debits.of a = bundle.due a) ∨
      l.validate bundle now = .error .nonceReused ∨
      (∃ leg, l.validate bundle now = .error (.quoteExpired leg)) ∨
      ∃ debits err, validateLegs bundle.requester now bundle.legs.zipIdx [] = .ok debits ∧
        (∀ a, debits.of a = bundle.due a) ∧ l.validateDebits debits = .error err ∧
        l.validate bundle now = .error err := by
  have hsome : bundle.legs.length ≠ 0 := fun hzero => h.nonempty (List.length_eq_zero_iff.mp hzero)
  have hfew : ¬ MAX_LEGS < bundle.legs.length := Nat.not_lt.mpr h.few
  unfold validate
  rw [if_neg hsome, if_neg hfew]
  split
  · exact .inr (.inl rfl)
  rcases validateLegs_of_payable h now with ⟨debits, hdebits, hof⟩ | ⟨leg, hexpired⟩
  · rw [hdebits]
    dsimp only
    cases hcovered : l.validateDebits debits with
    | error err => exact .inr (.inr (.inr ⟨debits, err, rfl, hof, hcovered, rfl⟩))
    | ok => exact .inl ⟨debits, rfl, hof⟩
  · rw [hexpired]
    exact .inr (.inr (.inl ⟨leg, rfl⟩))

/-- The only complaints the debits themselves can lead to. -/
theorem validateDebits_error {l : CustodyLedger} {debits : Debits} {err : SettleError}
    (h : l.validateDebits debits = .error err) :
    ∃ x ∈ debits, (err = .unknownAccount ∧ l.account x.1 = none ∨
      err = .insufficientFunds x.1 ∧ l.balance x.1 < x.2) := by
  induction debits with
  | nil => cases h
  | cons x debits ih =>
      obtain ⟨account, amount⟩ := x
      rw [validateDebits] at h
      split at h
      next hnone =>
        exact ⟨(account, amount), by simp, .inl ⟨(Except.error.inj h).symm, by simpa using hnone⟩⟩
      split at h
      next hshort =>
        exact ⟨(account, amount), by simp, .inr ⟨(Except.error.inj h).symm, hshort⟩⟩
      obtain ⟨x, hx, hcause⟩ := ih h
      exact ⟨x, by simp [hx], hcause⟩

end CustodyLedger

end RfqSettlement
