/-
  RfqSettlement.Core.Types

  The money and time newtypes, the checked arithmetic on them, and the venue
  configuration with its two startup assertions (`core/src/types.rs`,
  `core/src/config.rs`).

  Every newtype of the source (`Amount`, `Price`, `Size`, `Ts`, `Dur`, `LegId`,
  `AccountIdx`, `ContractIdx`, `EscrowId`) wraps an unsigned machine integer.
  Here each is a `Nat` named by the argument or field that holds it, and the
  places where the width matters (a checked or a saturating operation) compare
  against `u64Max` explicitly, as the source's `checked_*` and `saturating_*`
  methods do.
-/

namespace RfqSettlement

-- ============================================================================
-- Shared value types
-- ============================================================================

/-- `u64::MAX`. -/
def u64Max : Nat := 18446744073709551615

/-- `u32::MAX`, the last generation of a slab slot and the nil link. -/
def u32Max : Nat := 4294967295

/-- A bare index into a slab, or nil.  `u32::MAX` is the nil link of the source,
    and a slab of that capacity is refused at construction, so no index is nil. -/
abbrev Link := Option Nat

/-- Which side of a contract the requester is buying. -/
inductive Side where
  | yes
  | no
deriving DecidableEq, Repr

/-- How a binary contract resolved. -/
inductive Outcome where
  | yes
  | no
  | void
deriving DecidableEq, Repr

-- ============================================================================
-- Checked and saturating arithmetic
-- ============================================================================

/-- `checked_add` on 64-bit values. -/
def checkedAdd (a b : Nat) : Option Nat :=
  if a + b ≤ u64Max then some (a + b) else none

/-- `checked_sub`. -/
def checkedSub (a b : Nat) : Option Nat :=
  if b ≤ a then some (a - b) else none

/-- `saturating_add` on 64-bit values. -/
def saturatingAdd (a b : Nat) : Nat :=
  min (a + b) u64Max

/-- `saturating_sub`. -/
def saturatingSub (a b : Nat) : Nat :=
  a - b

theorem checkedAdd_eq_some {a b c : Nat} :
    checkedAdd a b = some c ↔ a + b ≤ u64Max ∧ c = a + b := by
  by_cases h : a + b ≤ u64Max <;> simp [checkedAdd, h, eq_comm]

theorem checkedSub_eq_some {a b c : Nat} : checkedSub a b = some c ↔ b ≤ a ∧ c = a - b := by
  by_cases h : b ≤ a <;> simp [checkedSub, h, eq_comm]

/-- Payout per contract to the winning side. -/
def UNIT : Nat := 1000000

/-- `Size::checked_mul`: the product is taken in 128 bits and checked on narrowing. -/
def Size.checkedMul (size : Nat) (price : Nat) : Option Nat :=
  if size * price ≤ u64Max then some (size * price) else none

/-- The requester's contribution for a leg, `size × price`. -/
def Size.requesterContribution (size : Nat) (price : Nat) : Option Nat :=
  Size.checkedMul size price

/-- The maker's contribution for a leg, `size × (UNIT − price)`. -/
def Size.makerContribution (size : Nat) (price : Nat) : Option Nat :=
  match checkedSub UNIT price with
  | some complement => Size.checkedMul size complement
  | none => none

/-- The escrowed notional of a leg, `size × UNIT`. -/
def Size.notional (size : Nat) : Option Nat :=
  Size.checkedMul size UNIT

theorem Size.checkedMul_eq_some {size price amount : Nat} :
    Size.checkedMul size price = some amount ↔ size * price ≤ u64Max ∧ amount = size * price := by
  by_cases h : size * price ≤ u64Max <;> simp [Size.checkedMul, h, eq_comm]

theorem Size.makerContribution_eq_some {size price amount : Nat} :
    Size.makerContribution size price = some amount ↔
      price ≤ UNIT ∧ size * (UNIT - price) ≤ u64Max ∧ amount = size * (UNIT - price) := by
  unfold Size.makerContribution checkedSub
  by_cases h : price ≤ UNIT
  · simp [h, Size.checkedMul_eq_some]
  · simp [h]

/-- The two contributions of a leg sum to its notional, with no division and so
    no remainder. -/
theorem contributions_sum {size price : Nat} (h : price ≤ UNIT) :
    size * price + size * (UNIT - price) = size * UNIT := by
  rw [← Nat.mul_add, Nat.add_sub_cancel' h]

-- ============================================================================
-- Configuration
-- ============================================================================

/-- Storage bound on legs per request. -/
def MAX_LEGS : Nat := 8

/-- Storage bound on live quotes per leg. -/
def MAX_QUOTES_PER_LEG : Nat := 16

/-- Venue policy and preallocated capacities. -/
structure Config where
  maxLegs : Nat
  maxQuotesPerLeg : Nat
  maxQuoteTtl : Nat
  maxRequestTtl : Nat
  minHorizon : Nat
  maxSettlingTime : Nat
  stallGrace : Nat
  challengeWindow : Nat
  escalationAuthority : Nat
  withdrawalDelay : Nat
  maxAccounts : Nat
  maxReservations : Nat
  maxRequests : Nat
  maxQuotes : Nat
  maxEscrows : Nat
  maxContracts : Nat
  confirmations : Nat
  blockTime : Nat
  maxIndexerLag : Nat
  maxSettlementInclusionTime : Nat
deriving DecidableEq, Repr

/-- A configuration that must not be allowed to start. -/
inductive ConfigError where
  | maxLegsExceedsStorage
  | maxQuotesPerLegExceedsStorage
  | capacityTooLarge
  | horizonTermOverflow
  | horizonTooShort
  | timelockTermOverflow
  | withdrawalDelayTooShort
deriving DecidableEq, Repr

/-- The preallocated capacities, none of which may be the nil link. -/
def Config.capacities (c : Config) : List Nat :=
  [c.maxAccounts, c.maxReservations, c.maxRequests, c.maxQuotes, c.maxContracts, c.maxEscrows]

/-- The right-hand side of the timelock inequality: the wider of the two claim
    windows plus the three lag terms. -/
def Config.timelockMustExceed (c : Config) (latestEscrowFormation : Nat) : Option Nat :=
  let claimWindow :=
    if latestEscrowFormation < c.maxQuoteTtl then c.maxQuoteTtl else latestEscrowFormation
  if c.blockTime * c.confirmations ≤ u64Max then
    (checkedAdd claimWindow (c.blockTime * c.confirmations)).bind fun sum =>
      (checkedAdd sum c.maxIndexerLag).bind fun sum =>
        checkedAdd sum c.maxSettlementInclusionTime
  else none

/-- The startup assertions, in the source's order.  A capacity is a `u32`, so
    being `u32::MAX` and being at least `u32::MAX` are the same test. -/
def Config.validate (c : Config) : Except ConfigError Unit :=
  if MAX_LEGS < c.maxLegs then .error .maxLegsExceedsStorage
  else if MAX_QUOTES_PER_LEG < c.maxQuotesPerLeg then .error .maxQuotesPerLegExceedsStorage
  else if c.capacities.any (u32Max ≤ ·) then .error .capacityTooLarge
  else
    match checkedAdd c.maxRequestTtl c.maxSettlingTime with
    | none => .error .horizonTermOverflow
    | some latestEscrowFormation =>
      if c.minHorizon ≤ latestEscrowFormation then .error .horizonTooShort
      else
        match c.timelockMustExceed latestEscrowFormation with
        | none => .error .timelockTermOverflow
        | some mustExceed =>
          if c.withdrawalDelay ≤ mustExceed then .error .withdrawalDelayTooShort
          else .ok ()

/-- Capacities the slabs accept: `Slab::with_capacity` refuses `u32::MAX`. -/
structure Config.Storable (c : Config) : Prop where
  reservations : c.maxReservations < u32Max
  requests : c.maxRequests < u32Max
  quotes : c.maxQuotes < u32Max

/-- What `validate` promises, one field a check. -/
structure Config.Valid (c : Config) : Prop where
  legs : c.maxLegs ≤ MAX_LEGS
  quotesPerLeg : c.maxQuotesPerLeg ≤ MAX_QUOTES_PER_LEG
  capacities : ∀ n ∈ c.capacities, n < u32Max
  window : c.maxRequestTtl + c.maxSettlingTime ≤ u64Max
  horizon : c.maxRequestTtl + c.maxSettlingTime < c.minHorizon
  timelock : max c.maxQuoteTtl (c.maxRequestTtl + c.maxSettlingTime) +
    c.blockTime * c.confirmations + c.maxIndexerLag + c.maxSettlementInclusionTime <
      c.withdrawalDelay

theorem Config.timelockMustExceed_eq_some {c : Config} {window bound : Nat}
    (h : c.timelockMustExceed window = some bound) :
    bound = max c.maxQuoteTtl window + c.blockTime * c.confirmations + c.maxIndexerLag +
      c.maxSettlementInclusionTime := by
  unfold Config.timelockMustExceed at h
  by_cases hlag : c.blockTime * c.confirmations ≤ u64Max
  · simp only [hlag, if_true, Option.bind_eq_some_iff, checkedAdd_eq_some] at h
    obtain ⟨s₁, ⟨_, rfl⟩, s₂, ⟨_, rfl⟩, _, rfl⟩ := h
    split <;> omega
  · simp [hlag] at h

theorem Config.valid_of_validate {c : Config} (h : c.validate = .ok ()) : c.Valid := by
  unfold Config.validate at h
  split at h
  · cases h
  next hlegs =>
  split at h
  · cases h
  next hquotes =>
  split at h
  · cases h
  next hcap =>
  split at h
  · cases h
  next window hwindow =>
  obtain ⟨hfits, rfl⟩ := checkedAdd_eq_some.mp hwindow
  split at h
  · cases h
  next hhorizon =>
  split at h
  · cases h
  next bound hbound =>
  split at h
  · cases h
  next hdelay =>
  have hbound := Config.timelockMustExceed_eq_some hbound
  refine ⟨by omega, by omega, ?_, hfits, by omega, by omega⟩
  intro n hn
  simp only [List.any_eq_true, decide_eq_true_eq, not_exists, not_and] at hcap
  exact Nat.not_le.mp (hcap n hn)

theorem Config.Valid.storable {c : Config} (h : c.Valid) : c.Storable where
  reservations := h.capacities _ (by simp [Config.capacities])
  requests := h.capacities _ (by simp [Config.capacities])
  quotes := h.capacities _ (by simp [Config.capacities])

/-- A venue small enough to run by hand. -/
def Config.small : Config where
  maxLegs := 2
  maxQuotesPerLeg := 2
  maxQuoteTtl := 100
  maxRequestTtl := 100
  minHorizon := 200
  maxSettlingTime := 50
  stallGrace := 10
  challengeWindow := 10
  escalationAuthority := 0
  withdrawalDelay := 1000
  maxAccounts := 2
  maxReservations := 4
  maxRequests := 2
  maxQuotes := 3
  maxEscrows := 4
  maxContracts := 2
  confirmations := 1
  blockTime := 1
  maxIndexerLag := 10
  maxSettlementInclusionTime := 10

example : Config.small.validate = .ok () := rfl

/-- The same venue with room for several makers on both legs of a basket. -/
def Config.busy : Config :=
  { Config.small with maxAccounts := 4, maxReservations := 8, maxQuotes := 8, maxQuotesPerLeg := 4 }

example : Config.busy.validate = .ok () := rfl

end RfqSettlement
