/-
  RfqSettlement.Core.Capacity

  The request slab over whole runs.

  `Ledger.closeRequest` frees a request's slot and no command of the engine calls
  it, so a slot once taken stays taken: the generations of the request slab never
  move, and a slab without room holds `maxRequests` requests, standing or not.
-/

import RfqSettlement.Core.Inheritance
import RfqSettlement.Core.Refusals

namespace RfqSettlement

/-- A request that still binds anyone at `now`: settling, or open before its
    deadline. -/
def Request.standsAt (r : Request) (now : Nat) : Bool :=
  match r.state with
  | .settling _ _ => true
  | .opened => decide (now < r.deadline)
  | _ => false

namespace Slab

variable {kind : SlabKind} {α : Type} {s : Slab kind α}

theorem generations_withCapacity {capacity : Nat} :
    (withCapacity kind α capacity).generations = List.replicate capacity 0 := by
  simp only [generations, withCapacity, List.map_map]
  exact List.eq_replicate_iff.mpr ⟨by simp, fun generation hg => by
    obtain ⟨i, -, rfl⟩ := List.mem_map.mp hg
    rfl⟩

/-- How many stored values pass a test. -/
def countIf (s : Slab kind α) (p : α → Bool) : Nat := s.sum fun v => if p v then 1 else 0

theorem countIf_eq_add (p p' : α → Bool) :
    s.countIf p = (s.countIf fun v => p v && p' v) + s.countIf fun v => p v && !p' v := by
  rw [countIf, countIf, countIf, ← sum_add]
  apply sum_congr
  intro handle v _
  cases p v <;> cases p' v <;> rfl

theorem countIf_le_count (p : α → Bool) : s.countIf p ≤ s.count :=
  sum_le_sum fun _ v _ => by cases p v <;> simp

/-- What passes one test passes another just when no value is left out of the count. -/
theorem countIf_le_and (p p' : α → Bool) :
    (s.countIf p ≤ s.countIf fun v => p v && p' v) ↔
      ∀ handle v, s.get handle = some v → p v = true → p' v = true := by
  have hsplit := countIf_eq_add (s := s) p p'
  constructor
  · intro hle handle v hv hp
    have hzero : (s.countIf fun v => p v && !p' v) = 0 := by omega
    have hone := le_sum (fun v => if p v && !p' v then 1 else 0) hv
    rw [← countIf, hzero] at hone
    cases hp' : p' v with
    | true => rfl
    | false => simp [hp, hp'] at hone
  · intro hall
    have hzero : (s.countIf fun v => p v && !p' v) = 0 := by
      apply sum_eq_zero
      intro handle v hv
      have hpass := hall handle v hv
      cases hp : p v <;> simp_all
    omega

/-- All the stored values pass a test just when none is left out of the count. -/
theorem count_le_countIf (p : α → Bool) :
    s.count ≤ s.countIf p ↔ ∀ handle v, s.get handle = some v → p v = true := by
  have hall : s.count = s.countIf fun _ => true := rfl
  rw [hall]
  exact (countIf_le_and (fun _ => true) p).trans (by simp)

end Slab

namespace Engine

open Ledger (Carried Sized)

variable {e : Engine} {command : Command} {now : Nat} {events : EventBuffer} {answer : Answer}
  {requester deadline : Nat} {legs : List LegSpec}

-- ============================================================================
-- No command frees a request
-- ============================================================================

theorem Sane.generations_normalise (h : e.Sane) (account : Nat) :
    (e.normalise account now).ledger.requests.generations = e.ledger.requests.generations := by
  unfold Engine.normalise
  cases ha : e.ledger.account account with
  | none => rw [Ledger.releaseExpired_error ha]
  | some m =>
      obtain ⟨-, hswept⟩ := h.healthy.intact.releaseExpired account now (by simp [ha])
      exact hswept.kept.requestGenerations

theorem Sane.generations_normaliseAll (h : e.Sane) (accounts : List Nat) :
    (e.normaliseAll accounts now).ledger.requests.generations = e.ledger.requests.generations := by
  unfold Engine.normaliseAll
  induction accounts generalizing e with
  | nil => rfl
  | cons account accounts ih =>
      exact (ih (h.normalise now account).sane).trans (h.generations_normalise account)

/-- No command resizes a slab, or frees a slot of the request slab. -/
theorem Performs.slots (h : Performs e now events command answer) :
    answer.2.1.ledger.requests.generations = e.ledger.requests.generations ∧
      answer.2.1.ledger.quotes.capacity = e.ledger.quotes.capacity := by
  cases h with
  | refused => exact ⟨rfl, rfl⟩
  | traded _ _ hcarried => exact ⟨hcarried.sized.requestGenerations, hcarried.sized.quoteCapacity⟩
  | withdrawn _ hcarried => exact ⟨hcarried.sized.requestGenerations, hcarried.sized.quoteCapacity⟩
  | registered hnew =>
      rw [registerContract_eq hnew]
      exact ⟨rfl, rfl⟩
  | reported => exact ⟨rfl, rfl⟩
  | accepted _ hacc => exact ⟨hacc.sized.requestGenerations, hacc.sized.quoteCapacity⟩
  | resolved _ _ _ _ hres =>
      exact ⟨hres.carried.sized.requestGenerations, hres.carried.sized.quoteCapacity⟩
  | paid => exact ⟨rfl, rfl⟩

/-- The slabs keep the slots they were built with, none of the request slab's ever
    freed. -/
theorem slots_of_reachable {config : Config} (h : Reachable config e) :
    e.config = config ∧
      e.ledger.requests.generations = List.replicate config.maxRequests 0 ∧
      e.ledger.quotes.capacity = config.maxQuotes := by
  induction h with
  | new h =>
      obtain ⟨-, rfl⟩ := new_eq_ok h
      refine ⟨rfl, Slab.generations_withCapacity, ?_⟩
      show (Slab.withCapacity .quote Quote config.maxQuotes).slots.length = config.maxQuotes
      rw [Slab.withCapacity, List.length_map, List.length_range]
  | step h input ih =>
      obtain ⟨hconfig, hgens, hcap⟩ := ih
      have hsane := sane_of_reachable h
      have hn := hsane.normalised input.command input.now
      have hp := hn.sane.performs input.command input.now (.withCapacity input.capacity)
      obtain ⟨scope, -, hadv⟩ := hp.advances hn.sane
      exact ⟨(hadv.config.trans hn.config).trans hconfig,
        (hp.slots.1.trans (hsane.generations_normaliseAll _)).trans hgens,
        (hp.slots.2.trans (hsane.sameRecords_normaliseAll _).capacity).trans hcap⟩

theorem length_of_generations {l : Ledger} {n : Nat}
    (h : l.requests.generations = List.replicate n 0) : l.requests.slots.length = n := by
  simpa [Slab.generations] using congrArg List.length h

/-- A request slab whose slots were never freed is without room just when it is
    full. -/
theorem hasRoom_eq_false_iff {l : Ledger} {n : Nat} (hvalid : l.requests.Valid)
    (hgens : l.requests.generations = List.replicate n 0) :
    l.requests.hasRoom = false ↔ n ≤ l.requests.count := by
  rw [← length_of_generations hgens]
  constructor
  · intro hroom
    refine (hvalid.count_of_not_hasRoom hroom fun generation hg => ?_).ge
    rw [hgens] at hg
    rw [List.eq_of_mem_replicate hg]
    decide
  · intro hle
    by_contra hroom
    have hlt := hvalid.count_lt_of_hasRoom (by simpa using hroom) (Request.new 0 0 [])
    omega

-- ============================================================================
-- Submissions
-- ============================================================================

/-- What a submission is asked before the request slab is asked for a slot. -/
structure Presents (e : Engine) (requester deadline : Nat) (legs : List LegSpec) (now : Nat)
    (events : EventBuffer) : Prop where
  nonempty : legs.length ≠ 0
  few : legs.length ≤ e.config.maxLegs
  ahead : now < deadline
  near : deadline - now ≤ e.config.maxRequestTtl
  room : events.headroom 1 = true
  funded : ∃ total reserved, e.checkLegs now legs 0 = .ok total ∧
    e.ledger.checkReservable requester total = .ok reserved

theorem checkLegs_error {specs : List LegSpec} {total : Nat} {err : EngineError}
    (h : e.checkLegs now specs total = .error err) : ∀ x, err ≠ .ledger x := by
  induction specs generalizing total with
  | nil => cases h
  | cons spec specs ih =>
      unfold Engine.checkLegs at h
      repeat' split at h
      all_goals first | exact ih h | (cases h; simp)

theorem checkReservable_error {l : Ledger} {account amount : Nat} {err : LedgerError}
    (h : l.checkReservable account amount = .error err) : ∀ kind, err ≠ .slabExhausted kind := by
  unfold Ledger.checkReservable at h
  repeat' split at h
  all_goals cases h
  all_goals simp

theorem openRequestReserving_exhausted {l : Ledger} (record : Request) (amount : Nat)
    (hvalid : l.requests.Valid) :
    (l.openRequestReserving record amount).1 = .error (.slabExhausted .request) ↔
      (∃ reserved, l.checkReservable record.requester amount = .ok reserved) ∧
        l.requests.hasRoom = false := by
  unfold Ledger.openRequestReserving
  cases hcheck : l.checkReservable record.requester amount with
  | error err => simp [checkReservable_error hcheck]
  | ok reserved =>
      cases hroom : l.requests.hasRoom with
      | false => simp
      | true =>
          obtain ⟨⟨r, requests⟩, hins⟩ :=
            Option.isSome_iff_exists.mp (hvalid.insert_isSome hroom record)
          simp only [hins]
          cases l.reservations.hasRoom <;> simp
          split <;> simp

/-- The request slab's refusal, and all that it depends on. -/
theorem submitRequest_exhausted (hvalid : e.ledger.requests.Valid) :
    (e.submitRequest requester deadline legs now events).1 =
        .error (.ledger (.slabExhausted .request)) ↔
      e.Presents requester deadline legs now events ∧ e.ledger.requests.hasRoom = false := by
  unfold Engine.submitRequest
  split
  next hnone => exact iff_of_false (by simp [refuse]) fun h => h.1.nonempty hnone
  split
  next hmany => exact iff_of_false (by simp [refuse]) fun h => absurd h.1.few (by omega)
  split
  next hlate => exact iff_of_false (by simp [refuse]) fun h => absurd h.1.ahead (by omega)
  split
  next hfar => exact iff_of_false (by simp [refuse]) fun h => absurd h.1.near (by omega)
  next hsome hfew hahead hnear =>
  split
  next err hlegs =>
    refine iff_of_false ?_ fun h => ?_
    · simpa [refuse] using checkLegs_error hlegs _
    · obtain ⟨total, reserved, hok, -⟩ := h.1.funded
      rw [hlegs] at hok
      cases hok
  next total hlegs =>
  split
  next hfull => exact iff_of_false (by simp [refuse]) fun h => by simp [h.1.room] at hfull
  next hroom =>
  have hroom : events.headroom 1 = true := by simpa using hroom
  dsimp only
  generalize hrecord : Request.new requester deadline
    (legs.map fun s => Leg.new s.contract s.side s.size s.limit) = record
  have hopen := openRequestReserving_exhausted record total hvalid
  rw [show record.requester = requester from hrecord ▸ rfl] at hopen
  have hsame : (∃ reserved, e.ledger.checkReservable requester total = .ok reserved) ↔
      e.Presents requester deadline legs now events := by
    constructor
    · rintro ⟨reserved, hok⟩
      exact ⟨hsome, by omega, by omega, by omega, hroom, total, reserved, hlegs, hok⟩
    · rintro ⟨-, -, -, -, -, total', reserved, hlegs', hok⟩
      rw [hlegs, Except.ok.injEq] at hlegs'
      exact ⟨reserved, hlegs' ▸ hok⟩
  rw [← hsame, ← hopen]
  generalize e.ledger.openRequestReserving record total = opened
  obtain ⟨err | ⟨r, claim⟩, l'⟩ := opened
  · simp [refuse]
  · simp [done]

-- ============================================================================
-- Exhaustion
-- ============================================================================

/-- How many requests bind anyone at `now`. -/
def standingRequests (e : Engine) (now : Nat) : Nat :=
  e.ledger.requests.countIf fun r => r.standsAt now

/-- The request slab refuses a submission for `maxRequests` standing requests
    exactly when an earlier check refuses it, a slot was never taken, or no stored
    request has ended. -/
theorem exhausted_only_by_standing_iff {config : Config} (h : Reachable config e) (input : Input)
    (hcommand : input.command = .submitRequest requester deadline legs) :
    ((e.answer input).1 = .error (.ledger (.slabExhausted .request)) →
        config.maxRequests ≤ (e.normalisedFor input).standingRequests input.now) ↔
      ¬ (e.normalisedFor input).Presents requester deadline legs input.now
          (.withCapacity input.capacity) ∨
        (e.normalisedFor input).ledger.requests.count < config.maxRequests ∨
        ∀ r record, (e.normalisedFor input).ledger.request r = some record →
          record.standsAt input.now = true := by
  have hsane := sane_of_reachable h
  have hn := hsane.normalised input.command input.now
  have hvalid : (e.normalisedFor input).ledger.requests.Valid :=
    hn.sane.healthy.intact.wired.requests
  have hgens : (e.normalisedFor input).ledger.requests.generations =
      List.replicate config.maxRequests 0 :=
    (hsane.generations_normaliseAll _).trans (slots_of_reachable h).2.1
  have hfull := hasRoom_eq_false_iff hvalid hgens
  have hanswer : (e.answer input).1 = ((e.normalisedFor input).submitRequest requester deadline legs
      input.now (.withCapacity input.capacity)).1 := by
    rw [Engine.answer, Engine.apply, normalisedFor, hcommand]
    rfl
  rw [hanswer, submitRequest_exhausted hvalid, hfull]
  have hall := Slab.count_le_countIf (s := (e.normalisedFor input).ledger.requests)
    fun r => r.standsAt input.now
  have hmost : (e.normalisedFor input).ledger.requests.count ≤ config.maxRequests := by
    rw [← length_of_generations hgens]
    exact Slab.count_le_capacity
  constructor
  · intro hholds
    by_cases hpresents : (e.normalisedFor input).Presents requester deadline legs input.now
        (.withCapacity input.capacity)
    · rcases Nat.lt_or_ge (e.normalisedFor input).ledger.requests.count config.maxRequests with
        hlt | hge
      · exact .inr (.inl hlt)
      · exact .inr (.inr (hall.mp (hmost.trans (hholds ⟨hpresents, hge⟩))))
    · exact .inl hpresents
  · rintro (hnot | hlt | hstands) ⟨hpresents, hge⟩
    · exact absurd hpresents hnot
    · omega
    · exact hge.trans (hall.mpr hstands)

/-- Two requests opened and rejected. -/
def rejectedTwice : List Input :=
  [⟨.creditAccount 0 2000000, 0, 8⟩, ⟨.registerContract 0 1000, 0, 8⟩,
    ⟨.submitRequest 0 50 [⟨0, .yes, 1, 900000⟩], 1, 8⟩, ⟨.rejectRequest ⟨0, 0⟩, 2, 8⟩,
    ⟨.submitRequest 0 50 [⟨0, .yes, 1, 900000⟩], 3, 8⟩, ⟨.rejectRequest ⟨1, 0⟩, 4, 8⟩]

/-- The venue after `n` of those inputs. -/
def rejectedVenue (n : Nat) : Engine :=
  Engine.run ⟨Config.small, Ledger.new Config.small, 0⟩ (rejectedTwice.take n)

theorem reachableAt_rejectedVenue : ReachableAt Config.small 4 (rejectedVenue 6) :=
  have hnew : ReachableAt Config.small 0 ⟨Config.small, Ledger.new Config.small, 0⟩ := .new 0 rfl
  hnew.run rejectedTwice (show Paced (fun _ _ => True) 0 _ _ by simp [Paced, rejectedTwice])

/-- With one slot taken the request slab refuses nobody. -/
theorem exhausted_only_by_standing_iff_once :
    (((rejectedVenue 4).answer ⟨.submitRequest 0 50 [⟨0, .yes, 1, 900000⟩], 5, 8⟩).1 =
        .error (.ledger (.slabExhausted .request)) →
      Config.small.maxRequests ≤ ((rejectedVenue 4).normalisedFor
        ⟨.submitRequest 0 50 [⟨0, .yes, 1, 900000⟩], 5, 8⟩).standingRequests 5) ∧
      (rejectedVenue 4).standingRequests 5 = 0 := by
  have hnew : Reachable Config.small ⟨Config.small, Ledger.new Config.small, 0⟩ := .new rfl
  exact ⟨(exhausted_only_by_standing_iff (hnew.run (rejectedTwice.take 4)) _ rfl).mpr
    (.inr (.inl (by decide +kernel))), by decide +kernel⟩

/-- After two rejections the request slab refuses everybody. -/
theorem ended_requests_exhaust :
    ¬ ∀ (config : Config) (e : Engine) (now : Nat), ReachableAt config now e →
      ∀ (input : Input) (requester deadline : Nat) (legs : List LegSpec), now ≤ input.now →
        input.command = .submitRequest requester deadline legs →
          (e.answer input).1 = .error (.ledger (.slabExhausted .request)) →
            config.maxRequests ≤ (e.normalisedFor input).standingRequests input.now := by
  intro h
  have hle := h Config.small (rejectedVenue 6) 4 reachableAt_rejectedVenue
    ⟨.submitRequest 0 50 [⟨0, .yes, 1, 900000⟩], 5, 8⟩ 0 50 _ (by decide) rfl (by decide +kernel)
  exact absurd hle (by decide +kernel)

end Engine

end RfqSettlement
