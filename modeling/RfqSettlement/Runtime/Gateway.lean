/-
  RfqSettlement.Runtime.Gateway

  The boundary where external identifiers become indices (`runtime/src/gateway.rs`).

  A map is the function from its keys beside the number of them.  The registry's lock is
  `poisoned` once a thread panicked holding it, which any caller's history may contain.
  A contract is assigned its index before the call that names it can no longer fail, so a
  call that fails may have taken a registration with it: `registrations_kept_iff` says
  which calls do.
-/

import RfqSettlement.Core.Reports
import Mathlib.Data.Finset.Card

namespace RfqSettlement

/-- A contract as a participant describes it. -/
structure ContractRef where
  description : List UInt8
  eventDate : Nat
  resolutionSource : List UInt8
deriving DecidableEq, Repr

/-- Why the gateway could not admit something. -/
inductive GatewayError where
  | contractTableFull
  | accountTableFull
  | tooManyLegs
  | registryUnavailable
deriving DecidableEq, Repr

/-- One leg in external terms. -/
structure LegTerms where
  reference : ContractRef
  side : Side
  size : Nat
  limit : Nat
deriving DecidableEq, Repr

/-- External ids in, dense indices and commands out. -/
structure Gateway where
  contracts : ContractRef → Option Nat
  nContracts : Nat
  /-- The descriptions, by index. -/
  registry : List ContractRef
  poisoned : Bool
  maxContracts : Nat
  accounts : List UInt8 → Option Nat
  nAccounts : Nat
  maxAccounts : Nat

namespace Gateway

def new (maxAccounts maxContracts : Nat) : Gateway where
  contracts := fun _ => none
  nContracts := 0
  registry := []
  poisoned := false
  maxContracts := maxContracts
  accounts := fun _ => none
  nAccounts := 0
  maxAccounts := maxAccounts

/-- The index for an account key, assigning one on first sight. -/
def account (g : Gateway) (key : List UInt8) : Except GatewayError Nat × Gateway :=
  match g.accounts key with
  | some index => (.ok index, g)
  | none =>
    let next := min g.nAccounts u32Max
    if g.maxAccounts ≤ next then (.error .accountTableFull, g)
    else
      (.ok next, { g with
        accounts := Function.update g.accounts key (some next)
        nAccounts := g.nAccounts + 1 })

/-- `contracts.insert`, of a reference it does not have. -/
def assign (g : Gateway) (reference : ContractRef) (index : Nat) : Gateway :=
  { g with
    contracts := Function.update g.contracts reference (some index)
    nContracts := g.nContracts + 1 }

/-- `by_index.push`. -/
def push (g : Gateway) (reference : ContractRef) : Gateway :=
  { g with registry := g.registry ++ [reference] }

/-- The index for a contract, assigning one on first sight, and the command that tells the
    core about it then. -/
def contract (g : Gateway) (reference : ContractRef) :
    Except GatewayError (Nat × Option Command) × Gateway :=
  match g.contracts reference with
  | some index => (.ok (index, none), g)
  | none =>
    let next := min g.nContracts u32Max
    if g.maxContracts ≤ next then (.error .contractTableFull, g)
    else
      let g := g.assign reference next
      if g.poisoned then (.error .registryUnavailable, g)
      else
        (.ok (next, some (.registerContract next reference.eventDate)),
          g.push reference)

/-- The legs of a request, resolved one after another. -/
def resolveLegs (g : Gateway) :
    List LegTerms → Except GatewayError (List Command × List LegSpec) × Gateway
  | [] => (.ok ([], []), g)
  | leg :: legs =>
    match g.contract leg.reference with
    | (.error e, g) => (.error e, g)
    | (.ok (contract, registration), g) =>
      match g.resolveLegs legs with
      | (.error e, g) => (.error e, g)
      | (.ok (registrations, specs), g) =>
        (.ok (registration.toList ++ registrations,
          ⟨contract, leg.side, leg.size, leg.limit⟩ :: specs), g)

/-- Build a `SubmitRequest` from external terms, with the registrations to submit first. -/
def submitRequest (g : Gateway) (requester : List UInt8) (deadline : Nat) (legs : List LegTerms) :
    Except GatewayError (List Command × Command) × Gateway :=
  if MAX_LEGS < legs.length then (.error .tooManyLegs, g)
  else
    match g.account requester with
    | (.error e, g) => (.error e, g)
    | (.ok requester, g) =>
      match g.resolveLegs legs with
      | (.error e, g) => (.error e, g)
      | (.ok (registrations, specs), g) =>
        (.ok (registrations, .submitRequest requester deadline specs), g)

-- ============================================================================
-- Calls
-- ============================================================================

/-- One call of the gateway, or a panic with the registry's lock held. -/
inductive Call where
  | account (key : List UInt8)
  | contract (reference : ContractRef)
  | submitRequest (requester : List UInt8) (deadline : Nat) (legs : List LegTerms)
  | poison
deriving DecidableEq, Repr

/-- The gateway after a call, and the commands its caller was handed. -/
def call (g : Gateway) : Call → List Command × Gateway
  | .account key => ([], (g.account key).2)
  | .contract reference =>
    match g.contract reference with
    | (.error _, g) => ([], g)
    | (.ok (_, registration), g) => (registration.toList, g)
  | .submitRequest requester deadline legs =>
    match g.submitRequest requester deadline legs with
    | (.error _, g) => ([], g)
    | (.ok (registrations, request), g) => (registrations ++ [request], g)
  | .poison => ([], { g with poisoned := true })

def run (g : Gateway) (calls : List Call) : Gateway := calls.foldl (fun g c => (g.call c).2) g

/-- Every command handed over along the way, in order. -/
def returned (g : Gateway) : List Call → List Command
  | [] => []
  | c :: calls => (g.call c).1 ++ (g.call c).2.returned calls

theorem returned_append (g : Gateway) (calls calls' : List Call) :
    g.returned (calls ++ calls') = g.returned calls ++ (g.run calls).returned calls' := by
  induction calls generalizing g with
  | nil => rfl
  | cons c calls ih =>
      rw [List.cons_append, returned, returned, ih, List.append_assoc]
      rfl

variable {g g' g'' : Gateway} {reference : ContractRef} {handed handed' : List Command}
  {leg : LegTerms} {legs : List LegTerms} {calls : List Call} {index maxAccounts maxContracts : Nat}

-- ============================================================================
-- Numbering
-- ============================================================================

/-- Indices are handed out in order, one to a reference, within the table. -/
structure Numbered (g : Gateway) : Prop where
  below : ∀ reference index, g.contracts reference = some index → index < g.nContracts
  injective : ∀ reference reference' index, g.contracts reference = some index →
    g.contracts reference' = some index → reference = reference'
  room : g.nContracts ≤ g.maxContracts
  bound : g.maxContracts ≤ u32Max

/-- The registry describes every index by its reference, and no other. -/
structure Describes (g : Gateway) : Prop where
  length : g.registry.length = g.nContracts
  describe : ∀ reference index, g.contracts reference = some index ↔ g.registry[index]? = some reference

theorem numbered_new (hmax : maxContracts ≤ u32Max) : (new maxAccounts maxContracts).Numbered :=
  ⟨by simp [new], by simp [new], Nat.zero_le _, hmax⟩

theorem describes_new : (new maxAccounts maxContracts).Describes := ⟨rfl, by simp [new]⟩

theorem contracts_assign {reference' : ContractRef} :
    (g.assign reference index).contracts reference' =
      if reference' = reference then some index else g.contracts reference' :=
  Function.update_apply _ _ _ _

theorem Numbered.assign (h : g.Numbered) (hroom : g.nContracts < g.maxContracts) :
    (g.assign reference g.nContracts).Numbered := by
  refine ⟨fun ref i hi => ?_, fun ref ref' i hi hi' => ?_, hroom, h.bound⟩
  · show i < g.nContracts + 1
    rw [contracts_assign] at hi
    split at hi
    · have hlast := Option.some.inj hi
      omega
    · exact Nat.lt_succ_of_lt (h.below ref i hi)
  · rw [contracts_assign] at hi hi'
    split at hi
    next heq =>
      split at hi'
      next heq' => exact heq.trans heq'.symm
      next =>
        have hlast := Option.some.inj hi
        have hbelow := h.below ref' i hi'
        omega
    next =>
      split at hi'
      next =>
        have hlast := Option.some.inj hi'
        have hbelow := h.below ref i hi
        omega
      next => exact h.injective ref ref' i hi hi'

theorem Numbered.push (h : g.Numbered) : (g.push reference).Numbered :=
  ⟨h.below, h.injective, h.room, h.bound⟩

/-- What naming a contract comes to. -/
inductive Names (g : Gateway) (reference : ContractRef) :
    Except GatewayError (Nat × Option Command) × Gateway → Prop where
  | known {index : Nat} (hknown : g.contracts reference = some index) :
      Names g reference (.ok (index, none), g)
  | full (hnew : g.contracts reference = none) (hfull : g.maxContracts ≤ g.nContracts) :
      Names g reference (.error .contractTableFull, g)
  | lost (hnew : g.contracts reference = none) (hroom : g.nContracts < g.maxContracts)
      (hpoisoned : g.poisoned = true) :
      Names g reference (.error .registryUnavailable, g.assign reference g.nContracts)
  | assigned (hnew : g.contracts reference = none) (hroom : g.nContracts < g.maxContracts)
      (hlock : g.poisoned = false) :
      Names g reference (.ok (g.nContracts, some (.registerContract g.nContracts reference.eventDate)),
        (g.assign reference g.nContracts).push reference)

theorem Numbered.names (h : g.Numbered) (reference : ContractRef) :
    Names g reference (g.contract reference) := by
  have hnext : min g.nContracts u32Max = g.nContracts := Nat.min_eq_left (h.room.trans h.bound)
  unfold contract
  split
  next index hknown => exact .known hknown
  next hnew =>
    rw [hnext]
    dsimp only
    split
    next hfull => exact .full hnew hfull
    next hroom =>
      have hroom := Nat.not_le.mp hroom
      split
      next hpoisoned => exact .lost hnew hroom hpoisoned
      next hlock =>
        have hlock : ¬ g.poisoned = true := hlock
        exact .assigned hnew hroom (by simpa using hlock)

-- ============================================================================
-- What calls add
-- ============================================================================

/-- `g'` is `g` with contracts added, and `handed` registers contracts added. -/
structure Extends (g g' : Gateway) (handed : List Command) : Prop where
  numbered : g'.Numbered
  table : g'.maxContracts = g.maxContracts
  count : g.nContracts ≤ g'.nContracts
  kept : ∀ reference index, g.contracts reference = some index → g'.contracts reference = some index
  later : ∀ reference index, g'.contracts reference = some index →
    g.contracts reference = some index ∨ g.nContracts ≤ index
  registers : ∀ index date, .registerContract index date ∈ handed →
    g.nContracts ≤ index ∧ index < g'.nContracts

/-- Whatever is added is registered by `handed`, and described. -/
structure Registers (g g' : Gateway) (handed : List Command) : Prop where
  told : ∀ reference index, g'.contracts reference = some index →
    g.contracts reference = some index ∨ .registerContract index reference.eventDate ∈ handed
  describes : g.Describes → g'.Describes

theorem Extends.refl (h : g.Numbered) : g.Extends g [] :=
  ⟨h, rfl, Nat.le_refl _, fun _ _ => id, fun _ _ => .inl, by simp⟩

theorem Extends.trans (h : g.Extends g' handed) (h' : g'.Extends g'' handed') :
    g.Extends g'' (handed ++ handed') where
  numbered := h'.numbered
  table := h'.table.trans h.table
  count := h.count.trans h'.count
  kept := fun ref i hi => h'.kept ref i (h.kept ref i hi)
  later := fun ref i hi => by
    rcases h'.later ref i hi with hold | hlater
    · exact h.later ref i hold
    · exact .inr (h.count.trans hlater)
  registers := fun i date hmem => by
    rcases List.mem_append.mp hmem with hmem | hmem
    · have hrange := h.registers i date hmem
      exact ⟨hrange.1, hrange.2.trans_le h'.count⟩
    · have hrange := h'.registers i date hmem
      exact ⟨h.count.trans hrange.1, hrange.2⟩

/-- A call that fails hands nothing over. -/
theorem Extends.dropped (h : g.Extends g' handed) : g.Extends g' [] := ⟨h.numbered, h.table, h.count,
  h.kept, h.later, by simp⟩

/-- Commands that register nothing. -/
theorem Extends.append (h : g.Extends g' handed)
    (hother : ∀ index date, .registerContract index date ∉ handed') :
    g.Extends g' (handed ++ handed') :=
  { h with registers := fun i date hmem =>
      (List.mem_append.mp hmem).elim (h.registers i date) fun hmem => absurd hmem (hother i date) }

theorem Registers.refl (g : Gateway) (handed : List Command) : g.Registers g handed :=
  ⟨fun _ _ => .inl, id⟩

theorem Registers.trans (h : g.Registers g' handed) (h' : g'.Registers g'' handed') :
    g.Registers g'' (handed ++ handed') where
  told := fun ref i hi => by
    rcases h'.told ref i hi with hold | hmem
    · exact (h.told ref i hold).imp_right (List.mem_append_left _)
    · exact .inr (List.mem_append_right _ hmem)
  describes := fun hg => h'.describes (h.describes hg)

theorem Registers.append (h : g.Registers g' handed) : g.Registers g' (handed ++ handed') :=
  { h with told := fun ref i hi => (h.told ref i hi).imp_right (List.mem_append_left _) }

theorem extends_assign (h : g.Numbered) (hnew : g.contracts reference = none)
    (hroom : g.nContracts < g.maxContracts) :
    g.Extends (g.assign reference g.nContracts)
      [.registerContract g.nContracts reference.eventDate] where
  numbered := h.assign hroom
  table := rfl
  count := Nat.le_succ _
  kept := fun ref i hi => by
    rw [contracts_assign, if_neg]
    · exact hi
    · rintro rfl
      rw [hnew] at hi
      cases hi
  later := fun ref i hi => by
    rw [contracts_assign] at hi
    split at hi
    · exact .inr (Nat.le_of_eq (Option.some.inj hi))
    · exact .inl hi
  registers := fun i date hmem => by
    obtain ⟨rfl, -⟩ := Command.registerContract.inj (List.mem_singleton.mp hmem)
    exact ⟨Nat.le_refl _, Nat.lt_succ_self _⟩

theorem registers_assign (hnew : g.contracts reference = none) :
    g.Registers ((g.assign reference g.nContracts).push reference)
      [.registerContract g.nContracts reference.eventDate] where
  told := fun ref i hi => by
    have hi : (g.assign reference g.nContracts).contracts ref = some i := hi
    rw [contracts_assign] at hi
    split at hi
    next heq =>
      obtain rfl := Option.some.inj hi
      exact .inr (by rw [heq]; exact List.mem_singleton_self _)
    next => exact .inl hi
  describes := fun hg => by
    refine ⟨by simp [push, assign, hg.length], fun ref i => ?_⟩
    show (g.assign reference g.nContracts).contracts ref = some i ↔ (g.registry ++ [reference])[i]? = some ref
    rw [contracts_assign, List.getElem?_append, hg.length]
    split
    next heq =>
      subst heq
      split
      next hlt =>
        rw [← hg.describe, hnew]
        simp
        omega
      next hle =>
        rcases Nat.lt_or_eq_of_le (Nat.not_lt.mp hle) with hlt | rfl
        · rw [List.getElem?_eq_none (by simp; omega)]
          simp
          omega
        · simp
    next hne =>
      split
      next => exact hg.describe ref i
      next hle =>
        rw [hg.describe, List.getElem?_eq_none (by rw [hg.length]; omega)]
        rcases Nat.lt_or_eq_of_le (Nat.not_lt.mp hle) with hlt | rfl
        · rw [List.getElem?_eq_none (by simp; omega)]
        · simp [Ne.symm hne]

theorem extends_names {answer : Except GatewayError (Nat × Option Command) × Gateway} (h : g.Numbered)
    (hnames : Names g reference answer) :
    ∃ handed, g.Extends answer.2 handed ∧ ∀ index registration,
      answer.1 = .ok (index, registration) → handed = registration.toList ∧
        answer.2.contracts reference = some index ∧ g.Registers answer.2 handed := by
  cases hnames with
  | known hknown =>
      refine ⟨[], .refl h, ?_⟩
      rintro _ _ ⟨⟩
      exact ⟨rfl, hknown, .refl g []⟩
  | full => exact ⟨[], .refl h, by rintro _ _ ⟨⟩⟩
  | lost hnew hroom => exact ⟨_, extends_assign h hnew hroom, by rintro _ _ ⟨⟩⟩
  | assigned hnew hroom =>
      have hextends := extends_assign h hnew hroom
      refine ⟨_, ⟨hextends.numbered.push, hextends.table, hextends.count, hextends.kept, hextends.later,
        hextends.registers⟩, ?_⟩
      rintro _ _ ⟨⟩
      refine ⟨rfl, ?_, registers_assign hnew⟩
      show (g.assign reference g.nContracts).contracts reference = _
      rw [contracts_assign, if_pos rfl]

/-- Legs resolved are legs assigned, each new one registered. -/
theorem extends_resolveLegs (h : g.Numbered) (legs : List LegTerms) :
    ∃ handed, g.Extends (g.resolveLegs legs).2 handed ∧ ∀ registrations specs,
      (g.resolveLegs legs).1 = .ok (registrations, specs) → handed = registrations ∧
        g.Registers (g.resolveLegs legs).2 registrations ∧
        ∀ spec ∈ specs, ∃ reference, (g.resolveLegs legs).2.contracts reference = some spec.contract := by
  induction legs generalizing g with
  | nil =>
      refine ⟨[], .refl h, ?_⟩
      rintro _ _ ⟨⟩
      exact ⟨rfl, .refl g [], by simp⟩
  | cons leg legs ih =>
      have hnames := extends_names h (h.names leg.reference)
      rw [resolveLegs]
      generalize g.contract leg.reference = answer at hnames
      obtain ⟨answer, g₁⟩ := answer
      obtain ⟨handed₁, hextends₁, hok₁⟩ := hnames
      cases answer with
      | error e => exact ⟨handed₁, hextends₁, by rintro _ _ ⟨⟩⟩
      | ok named =>
          obtain ⟨index, registration⟩ := named
          obtain ⟨rfl, hindex, hregisters₁⟩ := hok₁ index registration rfl
          have hrest := ih hextends₁.numbered
          dsimp only at hrest ⊢
          generalize g₁.resolveLegs legs = rest at hrest
          obtain ⟨rest, g₂⟩ := rest
          obtain ⟨handed₂, hextends₂, hok₂⟩ := hrest
          cases rest with
          | error e => exact ⟨_, hextends₁.trans hextends₂, by rintro _ _ ⟨⟩⟩
          | ok resolved =>
              obtain ⟨registrations, specs⟩ := resolved
              obtain ⟨rfl, hregisters₂, hspecs⟩ := hok₂ registrations specs rfl
              refine ⟨_, hextends₁.trans hextends₂, ?_⟩
              rintro _ _ ⟨⟩
              refine ⟨rfl, hregisters₁.trans hregisters₂, ?_⟩
              rintro spec hspec
              rcases List.mem_cons.mp hspec with rfl | hspec
              · exact ⟨leg.reference, hextends₂.kept _ _ hindex⟩
              · exact hspecs spec hspec

-- ============================================================================
-- Which calls lose a registration
-- ============================================================================

/-- The references of a request that have no index yet. -/
def fresh (g : Gateway) (legs : List LegTerms) : Finset ContractRef :=
  (legs.map LegTerms.reference).toFinset.filter fun reference => g.contracts reference = none

/-- A call that either registers what it assigns or assigns nothing. -/
def Keeps (g : Gateway) : Call → Prop
  | .account _ | .poison => True
  | .contract reference =>
    g.contracts reference = none → g.nContracts < g.maxContracts → g.poisoned = false
  | .submitRequest requester _ legs =>
    legs.length ≤ MAX_LEGS →
      ((g.accounts requester).isSome = true ∨ min g.nAccounts u32Max < g.maxAccounts) →
      g.fresh legs ≠ ∅ → g.nContracts < g.maxContracts →
        g.poisoned = false ∧ g.nContracts + (g.fresh legs).card ≤ g.maxContracts

theorem fresh_known (hknown : g.contracts leg.reference = some index) :
    g.fresh (leg :: legs) = g.fresh legs := by
  ext reference
  simp only [fresh, List.map_cons, List.toFinset_cons, Finset.mem_filter, Finset.mem_insert]
  constructor
  · rintro ⟨rfl | hmem, hnew⟩
    · rw [hknown] at hnew
      cases hnew
    · exact ⟨hmem, hnew⟩
  · rintro ⟨hmem, hnew⟩
    exact ⟨.inr hmem, hnew⟩

theorem mem_fresh_cons (hnew : g.contracts leg.reference = none) :
    leg.reference ∈ g.fresh (leg :: legs) := by
  simp [fresh, hnew]

/-- Once it is assigned a reference is fresh no more. -/
theorem card_fresh_assign (hnew : g.contracts leg.reference = none)
    (hcontracts : g'.contracts = (g.assign leg.reference index).contracts) :
    (g'.fresh legs).card + 1 = (g.fresh (leg :: legs)).card := by
  have herase : g'.fresh legs = (g.fresh (leg :: legs)).erase leg.reference := by
    ext reference
    simp only [fresh, hcontracts, contracts_assign, List.map_cons, List.toFinset_cons, Finset.mem_filter,
      Finset.mem_insert, Finset.mem_erase]
    constructor
    · rintro ⟨hmem, hnone⟩
      split at hnone
      · cases hnone
      next hne => exact ⟨hne, .inr hmem, hnone⟩
    · rintro ⟨hne, heq | hmem, hnone⟩
      · exact absurd heq hne
      · exact ⟨hmem, by rw [if_neg hne]; exact hnone⟩
  rw [herase]
  exact Finset.card_erase_add_one (mem_fresh_cons hnew)

theorem resolveLegs_error {err : GatewayError} (hcontract : g.contract leg.reference = (.error err, g')) :
    g.resolveLegs (leg :: legs) = (.error err, g') := by
  rw [resolveLegs, hcontract]

/-- Past a leg that resolves, what comes of a request is what comes of the rest. -/
theorem resolveLegs_ok {named : Nat × Option Command}
    (hcontract : g.contract leg.reference = (.ok named, g')) :
    (g.resolveLegs (leg :: legs)).2 = (g'.resolveLegs legs).2 ∧
      ((g.resolveLegs (leg :: legs)).1.isOk = (g'.resolveLegs legs).1.isOk) := by
  rw [resolveLegs, hcontract]
  dsimp only
  generalize g'.resolveLegs legs = rest
  obtain ⟨rest, g₂⟩ := rest
  cases rest with
  | error err => exact ⟨rfl, rfl⟩
  | ok resolved => exact ⟨rfl, rfl⟩

/-- A request resolves if and only if there is room for every fresh reference. -/
theorem Numbered.isOk_resolveLegs (h : g.Numbered) :
    (g.resolveLegs legs).1.isOk = true ↔ g.fresh legs = ∅ ∨
      g.poisoned = false ∧ g.nContracts + (g.fresh legs).card ≤ g.maxContracts := by
  induction legs generalizing g with
  | nil => exact ⟨fun _ => .inl rfl, fun _ => rfl⟩
  | cons leg legs ih =>
      have hnames := h.names leg.reference
      generalize hanswer : g.contract leg.reference = answer at hnames
      cases hnames with
      | known hknown =>
          rw [(resolveLegs_ok hanswer).2, fresh_known hknown]
          exact ih h
      | full hnew hfull =>
          have hmem : leg.reference ∈ g.fresh (leg :: legs) := mem_fresh_cons hnew
          have hpos := Finset.card_pos.mpr ⟨_, hmem⟩
          rw [resolveLegs_error hanswer]
          constructor
          · rintro ⟨⟩
          · rintro (hnone | ⟨-, hcard⟩)
            · exact absurd hnone (Finset.ne_empty_of_mem hmem)
            · omega
      | lost hnew hroom hpoisoned =>
          rw [resolveLegs_error hanswer]
          constructor
          · rintro ⟨⟩
          · rintro (hnone | ⟨hlock, -⟩)
            · exact absurd hnone (Finset.ne_empty_of_mem (mem_fresh_cons hnew))
            · rw [hlock] at hpoisoned
              cases hpoisoned
      | assigned hnew hroom hlock =>
          have hone : (((g.assign leg.reference g.nContracts).push leg.reference).fresh legs).card + 1 =
              (g.fresh (leg :: legs)).card := card_fresh_assign hnew rfl
          rw [(resolveLegs_ok hanswer).2, ih (h.assign hroom).push]
          have hempty : g.fresh (leg :: legs) ≠ ∅ := Finset.ne_empty_of_mem (mem_fresh_cons hnew)
          constructor
          · rintro (hnone | ⟨-, hcard⟩)
            · rw [hnone, Finset.card_empty] at hone
              exact .inr ⟨hlock, by omega⟩
            · have hcard : g.nContracts + 1 + _ ≤ g.maxContracts := hcard
              exact .inr ⟨hlock, by omega⟩
          · intro hfresh
            obtain ⟨-, hcard⟩ := hfresh.resolve_left hempty
            refine .inr ⟨hlock, ?_⟩
            show g.nContracts + 1 + _ ≤ g.maxContracts
            omega

/-- With the table full nothing is assigned. -/
theorem Numbered.resolveLegs_full (h : g.Numbered) (hfull : g.maxContracts ≤ g.nContracts) :
    (g.resolveLegs legs).2 = g := by
  induction legs with
  | nil => rfl
  | cons leg legs ih =>
      have hnames := h.names leg.reference
      generalize hanswer : g.contract leg.reference = answer at hnames
      cases hnames with
      | known => exact (resolveLegs_ok hanswer).1.trans ih
      | full => rw [resolveLegs_error hanswer]
      | lost _ hroom => exact absurd hfull (Nat.not_le.mpr hroom)
      | assigned _ hroom => exact absurd hfull (Nat.not_le.mpr hroom)

/-- With room left the first fresh reference is assigned, whatever comes of the request. -/
theorem Numbered.resolveLegs_assigns (h : g.Numbered) (hfresh : g.fresh legs ≠ ∅)
    (hroom : g.nContracts < g.maxContracts) :
    ∃ reference index, g.contracts reference = none ∧
      (g.resolveLegs legs).2.contracts reference = some index := by
  induction legs with
  | nil => exact absurd rfl hfresh
  | cons leg legs ih =>
      have hnames := h.names leg.reference
      generalize hanswer : g.contract leg.reference = answer at hnames
      have hindex : (g.assign leg.reference g.nContracts).contracts leg.reference = some g.nContracts := by
        rw [contracts_assign, if_pos rfl]
      cases hnames with
      | known hknown =>
          rw [(resolveLegs_ok hanswer).1]
          exact ih (fresh_known hknown ▸ hfresh)
      | full _ hfull => exact absurd hroom (Nat.not_lt.mpr hfull)
      | lost hnew =>
          exact ⟨leg.reference, g.nContracts, hnew, by rw [resolveLegs_error hanswer]; exact hindex⟩
      | assigned hnew hroom =>
          have hnumbered : ((g.assign leg.reference g.nContracts).push leg.reference).Numbered :=
            (h.assign hroom).push
          obtain ⟨_, hextends, -⟩ := extends_resolveLegs hnumbered legs
          refine ⟨leg.reference, g.nContracts, hnew, ?_⟩
          rw [(resolveLegs_ok hanswer).1]
          exact hextends.kept _ _ hindex

-- ============================================================================
-- Calls and runs
-- ============================================================================

/-- An account is told by no contract. -/
theorem account_contracts (key : List UInt8) :
    (g.account key).2.contracts = g.contracts ∧ (g.account key).2.nContracts = g.nContracts ∧
      (g.account key).2.maxContracts = g.maxContracts ∧ (g.account key).2.registry = g.registry ∧
      (g.account key).2.poisoned = g.poisoned := by
  unfold account
  split
  · exact ⟨rfl, rfl, rfl, rfl, rfl⟩
  · dsimp only
    split <;> exact ⟨rfl, rfl, rfl, rfl, rfl⟩

theorem isOk_account {key : List UInt8} : (g.account key).1.isOk = true ↔
    (g.accounts key).isSome = true ∨ min g.nAccounts u32Max < g.maxAccounts := by
  unfold account
  split
  next hknown =>
    rw [hknown]
    exact ⟨fun _ => .inl rfl, fun _ => rfl⟩
  next hnew =>
    rw [hnew]
    dsimp only
    split
    next hfull =>
      refine ⟨by rintro ⟨⟩, ?_⟩
      rintro (⟨⟨⟩⟩ | hroom)
      exact absurd hroom (Nat.not_lt.mpr hfull)
    next hroom => exact ⟨fun _ => .inr (Nat.not_le.mp hroom), fun _ => rfl⟩

/-- Nothing about contracts changes. -/
theorem extends_same (h : g.Numbered) (hcontracts : g'.contracts = g.contracts)
    (hcount : g'.nContracts = g.nContracts) (htable : g'.maxContracts = g.maxContracts) :
    g.Extends g' [] where
  numbered := by
    refine ⟨?_, ?_, ?_, ?_⟩
    · rw [hcontracts, hcount]
      exact h.below
    · rw [hcontracts]
      exact h.injective
    · rw [hcount, htable]
      exact h.room
    · rw [htable]
      exact h.bound
  table := htable
  count := Nat.le_of_eq hcount.symm
  kept := fun ref i hi => hcontracts ▸ hi
  later := fun ref i hi => .inl (hcontracts ▸ hi)
  registers := by simp

theorem registers_same (hcontracts : g'.contracts = g.contracts) (hcount : g'.nContracts = g.nContracts)
    (hregistry : g'.registry = g.registry) : g.Registers g' handed where
  told := fun ref i hi => .inl (hcontracts ▸ hi)
  describes := fun hg => ⟨by rw [hregistry, hcount, hg.length], fun ref i => by
    rw [hcontracts, hregistry]
    exact hg.describe ref i⟩

/-- A call whose registrations, if it assigns anything, are all in `handed`, or that lost one. -/
structure Called (g : Gateway) (c : Call) : Prop where
  grows : g.Extends (g.call c).2 (g.call c).1
  keeps : g.Keeps c → g.Registers (g.call c).2 (g.call c).1
  loses : ¬ g.Keeps c → (g.call c).1 = [] ∧
    ∃ reference index, g.contracts reference = none ∧ (g.call c).2.contracts reference = some index

theorem Numbered.called_contract (h : g.Numbered) (reference : ContractRef) :
    g.Called (.contract reference) := by
  have hnames := h.names reference
  have hextends := extends_names h hnames
  have hcall : g.call (.contract reference) = match g.contract reference with
    | (.error _, g) => ([], g)
    | (.ok (_, registration), g) => (registration.toList, g) := rfl
  generalize g.contract reference = answer at hnames hextends hcall
  obtain ⟨handed, hextends, hok⟩ := hextends
  cases hnames with
  | known hknown =>
      obtain ⟨rfl, -, hregisters⟩ := hok _ _ rfl
      refine ⟨hcall ▸ hextends, fun _ => hcall ▸ hregisters, fun hnot => ?_⟩
      exact absurd (fun hnew => by rw [hknown] at hnew; cases hnew) hnot
  | full hnew hfull =>
      refine ⟨hcall ▸ hextends.dropped, fun _ => hcall ▸ .refl g _, fun hnot => ?_⟩
      exact absurd (fun _ hroom => absurd hroom (Nat.not_lt.mpr hfull)) hnot
  | lost hnew hroom hpoisoned =>
      refine ⟨hcall ▸ hextends.dropped, fun hkeeps => ?_, fun _ => ?_⟩
      · have hlock := hkeeps hnew hroom
        rw [hpoisoned] at hlock
        cases hlock
      · rw [hcall]
        exact ⟨rfl, reference, g.nContracts, hnew, by rw [contracts_assign, if_pos rfl]⟩
  | assigned hnew hroom hlock =>
      obtain ⟨rfl, -, hregisters⟩ := hok _ _ rfl
      refine ⟨hcall ▸ hextends, fun _ => hcall ▸ hregisters, fun hnot => ?_⟩
      exact absurd (fun _ _ => hlock) hnot

theorem Numbered.called_submitRequest (h : g.Numbered) (requester : List UInt8) (deadline : Nat)
    (legs : List LegTerms) : g.Called (.submitRequest requester deadline legs) := by
  have hcall : g.call (.submitRequest requester deadline legs) =
      match g.submitRequest requester deadline legs with
      | (.error _, g) => ([], g)
      | (.ok (registrations, request), g) => (registrations ++ [request], g) := rfl
  have hadmits : (g.account requester).1.isOk = true ↔ _ := isOk_account
  obtain ⟨hcontracts, hcount, htable, hregistry, hpoisoned⟩ := g.account_contracts requester
  rw [submitRequest] at hcall
  by_cases hlong : MAX_LEGS < legs.length
  · rw [if_pos hlong] at hcall
    refine ⟨hcall ▸ .refl h, fun _ => hcall ▸ .refl g _, fun hnot => ?_⟩
    exact absurd (fun hlen => absurd hlong (Nat.not_lt.mpr hlen)) hnot
  rw [if_neg hlong] at hcall
  generalize g.account requester = answer at *
  obtain ⟨answer, g₁⟩ := answer
  have hsame := extends_same h hcontracts hcount htable
  have hregisters : ∀ handed, g.Registers g₁ handed := fun _ => registers_same hcontracts hcount hregistry
  cases answer with
  | error err =>
      refine ⟨hcall ▸ hsame, fun _ => hcall ▸ hregisters _, fun hnot => ?_⟩
      refine absurd (fun _ hadmitted => ?_) hnot
      cases hadmits.mpr hadmitted
  | ok account =>
      dsimp only at hcall
      have hfresh : g₁.fresh legs = g.fresh legs := by
        simp only [fresh, show g₁.contracts = g.contracts from hcontracts]
      have hisOk : (g₁.resolveLegs legs).1.isOk = true ↔ _ := hsame.numbered.isOk_resolveLegs
      have hfull : g₁.maxContracts ≤ g₁.nContracts → (g₁.resolveLegs legs).2 = g₁ :=
        hsame.numbered.resolveLegs_full
      have hassigns : g₁.fresh legs ≠ ∅ → g₁.nContracts < g₁.maxContracts → ∃ reference index,
          g₁.contracts reference = none ∧ (g₁.resolveLegs legs).2.contracts reference = some index :=
        hsame.numbered.resolveLegs_assigns
      obtain ⟨handed, hextends, hok⟩ := extends_resolveLegs hsame.numbered legs
      generalize g₁.resolveLegs legs = rest at *
      obtain ⟨rest, g₂⟩ := rest
      rw [hfresh] at hisOk hassigns
      dsimp only at hcontracts hcount htable hregistry hpoisoned hisOk hfull hassigns hok hextends
      rw [hcount, htable, hpoisoned] at hisOk
      rw [hcount, htable] at hassigns hfull
      cases rest with
      | error err =>
          have hnotOk : ¬ (g.fresh legs = ∅ ∨
              g.poisoned = false ∧ g.nContracts + (g.fresh legs).card ≤ g.maxContracts) :=
            fun hroom => by cases hisOk.mpr hroom
          refine ⟨hcall ▸ (hsame.trans hextends).dropped, fun hkeeps => ?_, fun hnot => ?_⟩
          · -- nothing was fresh, or the table is full: nothing was assigned
            have hroom : g.maxContracts ≤ g.nContracts := by
              by_contra hroom
              have hadmitted := hadmits.mp rfl
              have hempty : g.fresh legs ≠ ∅ := fun hnone => hnotOk (.inl hnone)
              exact hnotOk (.inr (hkeeps (Nat.not_lt.mp hlong) hadmitted hempty (Nat.not_le.mp hroom)))
            rw [hcall, show g₂ = g₁ from hfull hroom]
            exact hregisters _
          · have hlost : g.fresh legs ≠ ∅ ∧ g.nContracts < g.maxContracts := by
              constructor
              · exact fun hnone => hnotOk (.inl hnone)
              · by_contra hroom
                exact hnot fun _ _ _ hroom' => absurd hroom' hroom
            obtain ⟨ref, i, hnew, hindex⟩ := hassigns hlost.1 hlost.2
            rw [hcall]
            exact ⟨rfl, ref, i, by rw [← hcontracts]; exact hnew, hindex⟩
      | ok resolved =>
          obtain ⟨registrations, specs⟩ := resolved
          obtain ⟨rfl, hrest, -⟩ := hok registrations specs rfl
          refine ⟨?_, fun _ => ?_, fun hnot => ?_⟩
          · rw [hcall]
            exact (hsame.trans hextends).append (by simp)
          · rw [hcall]
            exact ((hregisters []).trans hrest).append
          · refine absurd (fun _ _ hempty _ => ?_) hnot
            exact (hisOk.mp rfl).resolve_left hempty

theorem Numbered.called (h : g.Numbered) (c : Call) : g.Called c := by
  cases c with
  | account key =>
      obtain ⟨hcontracts, hcount, htable, hregistry, -⟩ := g.account_contracts key
      exact ⟨extends_same h hcontracts hcount htable, fun _ => registers_same hcontracts hcount hregistry,
        fun hnot => absurd trivial hnot⟩
  | contract reference => exact h.called_contract reference
  | submitRequest requester deadline legs => exact h.called_submitRequest requester deadline legs
  | poison => exact ⟨extends_same h rfl rfl rfl, fun _ => registers_same rfl rfl rfl,
      fun hnot => absurd trivial hnot⟩

theorem Numbered.extends_run (h : g.Numbered) (calls : List Call) :
    g.Extends (g.run calls) (g.returned calls) := by
  induction calls generalizing g with
  | nil => exact .refl h
  | cons c calls ih => exact (h.called c).grows.trans (ih (h.called c).grows.numbered)

/-- Calls that each keep what they assign keep it all. -/
theorem Numbered.registers_run (h : g.Numbered)
    (hkeeps : ∀ before c after, calls = before ++ c :: after → (g.run before).Keeps c) :
    g.Registers (g.run calls) (g.returned calls) := by
  induction calls generalizing g with
  | nil => exact .refl g []
  | cons c calls ih =>
      have hcalled := h.called c
      refine (hcalled.keeps (hkeeps [] c calls rfl)).trans (ih hcalled.grows.numbered ?_)
      intro before c' after heq
      exact hkeeps (c :: before) c' after (by rw [heq, List.cons_append])

end Gateway

-- ============================================================================
-- The engine the commands go to
-- ============================================================================

namespace Engine

variable {e : Engine} {input : Input} {inputs : List Input} {contract eventDate : Nat}

theorem Performs.contracts_length {command : Command} {now : Nat} {events : EventBuffer} {answer : Answer}
    (hp : Performs e now events command answer) :
    answer.2.1.ledger.contracts.length = e.ledger.contracts.length := by
  cases hp with
  | refused => rfl
  | traded _ _ hcarried => exact congrArg List.length hcarried.sized.contracts
  | withdrawn _ hcarried => exact congrArg List.length hcarried.sized.contracts
  | registered hnew => simp [done, registerContract_eq hnew]
  | reported => simp [done, Ledger.setOracleStatus]
  | accepted _ hacc => exact congrArg List.length hacc.sized.contracts
  | resolved _ _ _ _ hres => exact congrArg List.length hres.carried.sized.contracts
  | paid => rfl

theorem Sane.contracts_length_step (h : e.Sane) (input : Input) :
    (e.step input).ledger.contracts.length = e.ledger.contracts.length := by
  have hn := h.normalised input.command input.now
  have hlength := (hn.sane.performs input.command input.now (.withCapacity input.capacity)).contracts_length
  rwa [hn.contracts] at hlength

/-- A contract in the table is registered by the first command that registers it. -/
theorem Sane.registered_step (h : e.Sane) (hcommand : input.command = .registerContract contract eventDate)
    (htable : contract < e.ledger.contracts.length) :
    ((e.step input).ledger.contract contract).isSome = true := by
  have hn := h.normalised input.command input.now
  have hanswer : e.answer input = (e.normaliseAll (e.touchedAccounts input.command)
      input.now).perform input.command input.now (.withCapacity input.capacity) := rfl
  rw [step, hanswer]
  rw [← hn.contracts] at htable
  generalize e.normaliseAll _ input.now = n at htable
  rw [hcommand, Engine.perform]
  unfold Ledger.registerContract
  cases hentry : n.ledger.contracts[contract]? with
  | none => exact absurd htable (Nat.not_lt.mpr (List.getElem?_eq_none_iff.mp hentry))
  | some entry =>
      cases entry with
      | none =>
          show (Option.join ((n.ledger.contracts.set contract _)[contract]?)).isSome = true
          rw [List.getElem?_set_self htable]
          rfl
      | some existing =>
          have hsome : (n.ledger.contract contract).isSome = true := by
            rw [Ledger.contract, hentry]
            rfl
          by_cases hdate : existing.eventDate = eventDate
          · simp only [if_pos hdate]
            exact hsome
          · simp only [if_neg hdate]
            exact hsome

theorem Sane.registered_kept (h : e.Sane) (input : Input)
    (hsome : (e.ledger.contract contract).isSome = true) :
    ((e.step input).ledger.contract contract).isSome = true := by
  have hreports := h.reports_step input contract
  generalize e.ledger.contract contract = before at hreports hsome
  generalize (e.step input).ledger.contract contract = after at hreports
  cases hreports with
  | same => exact hsome
  | new => rfl
  | report => rfl

/-- What was registered along a run is registered. -/
theorem Reachable.registered_run {config : Config} (h : Reachable config e)
    (hmem : .registerContract contract eventDate ∈ inputs.map Input.command)
    (htable : contract < e.ledger.contracts.length) :
    ((e.run inputs).ledger.contract contract).isSome = true := by
  have hkept : ∀ (inputs : List Input) {e : Engine}, Reachable config e →
      (e.ledger.contract contract).isSome = true → ((e.run inputs).ledger.contract contract).isSome = true := by
    intro inputs
    induction inputs with
    | nil => exact fun _ hsome => hsome
    | cons input inputs ih =>
        exact fun hreach hsome => ih (hreach.step input) ((sane_of_reachable hreach).registered_kept input hsome)
  induction inputs generalizing e with
  | nil => cases hmem
  | cons input inputs ih =>
      have hsane := sane_of_reachable h
      rcases List.mem_cons.mp hmem with hcommand | hmem
      · exact hkept inputs (h.step input) (hsane.registered_step hcommand.symm htable)
      · exact ih (h.step input) hmem (by rw [hsane.contracts_length_step]; exact htable)

theorem checkLegs_known {legs : List LegSpec} {now reservation : Nat}
    (hknown : ∀ spec ∈ legs, (e.ledger.contract spec.contract).isSome = true) :
    e.checkLegs now legs reservation ≠ .error .unknownContract := by
  induction legs generalizing reservation with
  | nil => simp [checkLegs]
  | cons spec legs ih =>
      obtain ⟨hfirst, hrest⟩ := List.forall_mem_cons.mp hknown
      unfold checkLegs
      repeat' split
      all_goals first
        | exact ih hrest
        | (intro heq; cases heq; done)
        | skip
      next hnone =>
        rw [hnone] at hfirst
        cases hfirst

/-- A request for registered contracts is not refused for an unknown one. -/
theorem Sane.known_contracts (h : e.Sane) {requester deadline : Nat} {legs : List LegSpec}
    (hcommand : input.command = .submitRequest requester deadline legs)
    (hknown : ∀ spec ∈ legs, (e.ledger.contract spec.contract).isSome = true) :
    (e.answer input).1 ≠ .error .unknownContract := by
  have hn := h.normalised input.command input.now
  have hanswer : e.answer input = (e.normaliseAll (e.touchedAccounts input.command)
      input.now).perform input.command input.now (.withCapacity input.capacity) := rfl
  rw [hanswer]
  have hsame : ∀ contract, (e.normaliseAll (e.touchedAccounts input.command) input.now).ledger.contract
      contract = e.ledger.contract contract := fun contract => by simp only [Ledger.contract, hn.contracts]
  generalize e.normaliseAll _ input.now = n at hsame
  have hlegs : n.checkLegs input.now legs 0 ≠ .error .unknownContract :=
    checkLegs_known fun spec hspec => by rw [hsame]; exact hknown spec hspec
  rw [hcommand, Engine.perform]
  unfold Engine.submitRequest
  repeat' split
  all_goals first
    | (intro heq; cases heq; done)
    | skip
  next err herr =>
    intro heq
    cases heq
    exact hlegs herr
  · dsimp only
    split <;> (intro heq; cases heq)

end Engine

namespace Gateway

variable {g : Gateway} {calls : List Call} {maxAccounts maxContracts : Nat}

-- ============================================================================
-- Registrations
-- ============================================================================

/-- The gateway after `calls`, and what its caller was handed: every index is described by
    its reference and was registered by some command handed over, and once a caller has
    forwarded all it was handed no engine with as large a table refuses a request of the
    gateway's for a contract it does not know. -/
structure Faithful (g : Gateway) (calls : List Call) : Prop where
  describes : (g.run calls).Describes
  told : ∀ reference index, (g.run calls).contracts reference = some index →
    .registerContract index reference.eventDate ∈ g.returned calls
  served : ∀ before requester deadline legs after registrations request,
    calls = before ++ .submitRequest requester deadline legs :: after →
      ((g.run before).submitRequest requester deadline legs).1 = .ok (registrations, request) →
        ∀ config e inputs now capacity, Engine.new config = .ok e → g.maxContracts ≤ config.maxContracts →
          (g.returned before ++ registrations).Sublist (inputs.map Engine.Input.command) →
            ((e.run inputs).answer ⟨request, now, capacity⟩).1 ≠ .error .unknownContract

/-- The request a call builds names contracts that have an index. -/
theorem Numbered.specs_submitRequest (h : g.Numbered) {requester : List UInt8} {deadline : Nat}
    {legs : List LegTerms} {registrations : List Command} {request : Command}
    (hok : (g.submitRequest requester deadline legs).1 = .ok (registrations, request)) :
    ∃ account specs, request = .submitRequest account deadline specs ∧
      g.call (.submitRequest requester deadline legs) =
        (registrations ++ [request], (g.submitRequest requester deadline legs).2) ∧
      ∀ spec ∈ specs, ∃ reference,
        (g.submitRequest requester deadline legs).2.contracts reference = some spec.contract := by
  have hcall : g.call (.submitRequest requester deadline legs) =
      match g.submitRequest requester deadline legs with
      | (.error _, g) => ([], g)
      | (.ok (registrations, request), g) => (registrations ++ [request], g) := rfl
  obtain ⟨hcontracts, hcount, htable, -, -⟩ := g.account_contracts requester
  have hsame := extends_same h hcontracts hcount htable
  rw [submitRequest] at hok hcall ⊢
  by_cases hlong : MAX_LEGS < legs.length
  · rw [if_pos hlong] at hok
    cases hok
  rw [if_neg hlong] at hok hcall ⊢
  generalize g.account requester = answer at *
  obtain ⟨answer, g₁⟩ := answer
  cases answer with
  | error err => cases hok
  | ok account =>
      dsimp only at hok hcall hsame ⊢
      obtain ⟨handed, -, hspecs⟩ := extends_resolveLegs hsame.numbered legs
      generalize g₁.resolveLegs legs = rest at *
      obtain ⟨rest, g₂⟩ := rest
      cases rest with
      | error err => cases hok
      | ok resolved =>
          obtain ⟨registrations', specs⟩ := resolved
          cases hok
          exact ⟨account, specs, rfl, hcall, (hspecs _ specs rfl).2.2⟩

/-- A sequence of calls keeps every registration if and only if none of them assigns an
    index and then fails. -/
theorem registrations_kept_iff (hmax : maxContracts ≤ u32Max) (calls : List Call) :
    (new maxAccounts maxContracts).Faithful calls ↔
      ∀ before c after, calls = before ++ c :: after → ((new maxAccounts maxContracts).run before).Keeps c := by
  have hnew : (new maxAccounts maxContracts).Numbered := numbered_new hmax
  have hnone : ∀ reference index, (new maxAccounts maxContracts).contracts reference ≠ some index := by
    simp [new]
  generalize hg : new maxAccounts maxContracts = g at hnew hnone ⊢
  constructor
  · rintro hfaithful before c after rfl
    by_contra hnot
    have hbefore := hnew.extends_run before
    have hcalled := hbefore.numbered.called c
    have hafter := hcalled.grows.numbered.extends_run after
    obtain ⟨hnothing, reference, index, hfresh, hindex⟩ := hcalled.loses hnot
    have hrun : g.run (before ++ c :: after) = (((g.run before).call c).2).run after := by
      simp [run]
    have htold := hfaithful.told reference index (by rw [hrun]; exact hafter.kept _ _ hindex)
    -- the index lies between what was registered before the call and what was after it
    rw [returned_append, returned, hnothing, List.nil_append] at htold
    have hlate : (g.run before).nContracts ≤ index :=
      (hcalled.grows.later _ _ hindex).resolve_left (by rw [hfresh]; simp)
    have hearly := hcalled.grows.numbered.below _ _ hindex
    rcases List.mem_append.mp htold with hmem | hmem
    · have hrange := hbefore.registers _ _ hmem
      omega
    · have hrange := hafter.registers _ _ hmem
      omega
  · intro hkeeps
    have hregisters := hnew.registers_run hkeeps
    refine ⟨hregisters.describes (hg ▸ describes_new), fun reference index hindex => ?_, ?_⟩
    · exact (hregisters.told reference index hindex).resolve_left (hnone _ _)
    · rintro before requester deadline legs after registrations request rfl hok config e inputs now
        capacity hengine htable hsub
      have hbefore := hnew.extends_run before
      obtain ⟨account, specs, rfl, hcall, hspecs⟩ := hbefore.numbered.specs_submitRequest hok
      have hcalled := hbefore.numbered.called (.submitRequest requester deadline legs)
      have hfirst : g.Registers (g.run before) (g.returned before) :=
        hnew.registers_run fun b c a heq => hkeeps b c
          (a ++ .submitRequest requester deadline legs :: after) (by rw [heq]; simp)
      have hsofar := hfirst.trans (hcalled.keeps (hkeeps before _ after rfl))
      rw [hcall] at hsofar
      have hreach : Engine.Reachable config e := .new hengine
      refine (Engine.sane_of_reachable (hreach.run inputs)).known_contracts rfl fun spec hspec => ?_
      obtain ⟨reference, hreference⟩ := hspecs spec hspec
      have hmem := (hsofar.told reference spec.contract hreference).resolve_left (hnone _ _)
      have hhanded : Command.registerContract spec.contract reference.eventDate ∈
          g.returned before ++ registrations := by
        simpa using hmem
      refine hreach.registered_run (hsub.subset hhanded) ?_
      have hbelow := (hbefore.trans hcalled.grows).numbered.below reference spec.contract
        (by rw [hcall]; exact hreference)
      have hroom := (hbefore.trans hcalled.grows).numbered.room
      rw [(hbefore.trans hcalled.grows).table] at hroom
      obtain ⟨-, rfl⟩ := Engine.new_eq_ok hengine
      show spec.contract < (List.replicate config.maxContracts none).length
      rw [List.length_replicate]
      omega

def rain : ContractRef := ⟨[114], 1000, [0]⟩

def snow : ContractRef := ⟨[115], 1000, [0]⟩

/-- A request on two contracts, then another on one of them. -/
def weather : List Call :=
  [.submitRequest [1] 50 [⟨rain, .yes, 1, 5⟩, ⟨snow, .no, 1, 5⟩], .submitRequest [2] 60 [⟨rain, .yes, 1, 5⟩]]

theorem registrations_kept_iff_weather : (new 4 2).Faithful weather := by
  refine (registrations_kept_iff (by decide) weather).mpr fun before c after heq => ?_
  match before, heq with
  | [], heq =>
      obtain ⟨rfl, -⟩ := List.cons.inj heq
      exact fun _ _ _ _ => ⟨rfl, by decide⟩
  | [first], heq =>
      obtain ⟨hfirst, heq⟩ := List.cons.inj heq
      obtain ⟨rfl, -⟩ := List.cons.inj heq
      rw [← hfirst]
      exact fun _ _ _ _ => ⟨rfl, by decide⟩
  | _ :: _ :: before, heq =>
      have hlength := congrArg List.length heq
      simp [weather] at hlength

/-- With a table of one the first request fails at its second leg, and the registration of
    its first is never handed over. -/
theorem registration_lost :
    ¬ ∀ (maxAccounts maxContracts : Nat) (calls : List Call), maxContracts ≤ u32Max →
      (new maxAccounts maxContracts).Faithful calls := by
  intro hall
  have htold := (hall 4 1 weather (by decide)).told rain 0 (by decide)
  exact absurd htold (by decide)

end Gateway

end RfqSettlement
