/-
  RfqSettlement.Runtime.Publishing

  What the publisher is handed, against what the log holds.

  The engine thread numbers every event before it offers it to the publisher, and counts
  the ones the event channel does not take.  The entry of a command is offered to the log
  first, and nothing of a command the log refused is published.  So a subscriber sees a
  subsequence of what the log replays to, each event under its position in the whole, and
  the gaps in the numbers are the events it missed.
-/

import RfqSettlement.Runtime.Venue
import RfqSettlement.Core.Resolution
import RfqSettlement.Core.Refusals

namespace RfqSettlement

namespace Venue

variable {loop : Loop} {e : Engine} {deliveries : List Delivery} {eventBuffer : Nat} {told : List Event}
  {events : List Sequenced} {emitted dropped : Nat}

/-- The inputs a log holds. -/
def logged (eventBuffer : Nat) (log : List LogEntry) : List Engine.Input :=
  log.map fun entry => ⟨entry.command, entry.instant, eventBuffer⟩

/-- `events` were published of `told`: each under its position there, in that order, with
    the others counted as dropped. -/
structure Streamed (events : List Sequenced) (emitted dropped : Nat) (told : List Event) : Prop where
  placed : ∀ s ∈ events, told[s.sequence]? = some s.event
  ordered : events.Pairwise fun s t => s.sequence < t.sequence
  counted : emitted = events.length
  total : emitted + dropped = told.length

namespace Streamed

theorem sequence_lt (h : Streamed events emitted dropped told) {s : Sequenced} (hs : s ∈ events) :
    s.sequence < told.length := by
  obtain ⟨hlt, -⟩ := List.getElem?_eq_some_iff.mp (h.placed s hs)
  exact hlt

theorem placed_append (h : Streamed events emitted dropped told) (event : Event) {s : Sequenced}
    (hs : s ∈ events) : (told ++ [event])[s.sequence]? = some s.event := by
  rw [List.getElem?_append_left (h.sequence_lt hs)]
  exact h.placed s hs

/-- One more event, taken. -/
theorem take (h : Streamed events emitted dropped told) (event : Event) :
    Streamed (events ++ [⟨told.length, event⟩]) (emitted + 1) dropped (told ++ [event]) := by
  refine ⟨fun s hs => ?_, ?_, ?_, ?_⟩
  · rcases List.mem_append.mp hs with hs | hs
    · exact h.placed_append event hs
    · obtain rfl := List.mem_singleton.mp hs
      simp
  · refine List.pairwise_append.mpr ⟨h.ordered, List.pairwise_singleton _ _, fun s hs t ht => ?_⟩
    obtain rfl := List.mem_singleton.mp ht
    exact h.sequence_lt hs
  · rw [h.counted, List.length_append, List.length_singleton]
  · have htotal := h.total
    rw [List.length_append, List.length_singleton]
    omega

/-- One more event, refused. -/
theorem drop (h : Streamed events emitted dropped told) (event : Event) :
    Streamed events emitted (dropped + 1) (told ++ [event]) := by
  refine ⟨fun s hs => h.placed_append event hs, h.ordered, h.counted, ?_⟩
  have htotal := h.total
  rw [List.length_append, List.length_singleton]
  omega

end Streamed

/-- The loop has told `told`. -/
structure Loop.Told (loop : Loop) (told : List Event) : Prop where
  streamed : Streamed loop.events loop.eventsEmitted loop.eventsDropped told
  sequence : loop.eventSequence = told.length

theorem told_start (e : Engine) : (Loop.start e).Told [] :=
  ⟨⟨fun _ hs => absurd hs List.not_mem_nil, .nil, rfl, rfl⟩, rfl⟩

namespace Loop.Told

theorem offer (h : loop.Told told) (taken : Bool) (event : Event) (hroom : told.length < u64Max) :
    (loop.offer taken event).Told (told ++ [event]) := by
  have hemitted : saturatingAdd loop.eventsEmitted 1 = loop.eventsEmitted + 1 := by
    have htotal := h.streamed.total
    exact Nat.min_eq_left (by omega)
  have hdropped : saturatingAdd loop.eventsDropped 1 = loop.eventsDropped + 1 := by
    have htotal := h.streamed.total
    exact Nat.min_eq_left (by omega)
  have hsequence : saturatingAdd loop.eventSequence 1 = (told ++ [event]).length := by
    rw [h.sequence, List.length_append, List.length_singleton]
    exact Nat.min_eq_left hroom
  unfold Loop.offer
  cases taken with
  | true =>
      refine ⟨?_, hsequence⟩
      simp only [if_true, hemitted, h.sequence]
      exact h.streamed.take event
  | false =>
      refine ⟨?_, hsequence⟩
      simp only [Bool.false_eq_true, if_false, hdropped]
      exact h.streamed.drop event

theorem offers (h : loop.Told told) (published : Nat → Bool) (offered : List (Event × Nat))
    (hroom : told.length + offered.length ≤ u64Max) :
    (offered.foldl (fun loop x => loop.offer (published x.2) x.1) loop).Told
      (told ++ offered.map Prod.fst) := by
  induction offered generalizing loop told with
  | nil => simpa using h
  | cons x offered ih =>
      rw [List.length_cons] at hroom
      have hnext := h.offer (published x.2) x.1 (by omega)
      have hrest := ih hnext (by rw [List.length_append, List.length_singleton]; omega)
      rwa [List.append_assoc] at hrest

theorem publish (h : loop.Told told) (published : Nat → Bool) (events : List Event)
    (hroom : told.length + events.length ≤ u64Max) : (loop.publish published events).Told (told ++ events) := by
  have hoffers := h.offers published events.zipIdx (by rwa [List.length_zipIdx])
  rwa [List.zipIdx_map_fst] at hoffers

/-- One turn tells what its command emits. -/
theorem turn (h : loop.Told told) (d : Delivery)
    (hroom : told.length + (loop.engine.emits (input eventBuffer d)).length ≤ u64Max) :
    (loop.turn eventBuffer d).Told (told ++ loop.engine.emits (input eventBuffer d)) := by
  have happlied : ∀ outcome engine, (({ loop with engine } : Loop).record d outcome).Told told :=
    fun _ _ => ⟨h.streamed, h.sequence⟩
  have hpublished := (happlied (loop.engine.answer (input eventBuffer d)).1
    (loop.engine.step (input eventBuffer d))).publish d.published _ hroom
  exact ⟨hpublished.streamed, hpublished.sequence⟩

end Loop.Told

-- ============================================================================
-- Rounds
-- ============================================================================

/-- What the log of a round holds are the inputs that were recorded. -/
theorem logged_runLoop (eventBuffer : Nat) (loop : Loop) (deliveries : List Delivery) :
    logged eventBuffer (runLoop eventBuffer loop deliveries).entries =
      logged eventBuffer loop.entries ++ recordedInputs eventBuffer deliveries := by
  induction deliveries generalizing loop with
  | nil => simp [runLoop, Loop.finish, recordedInputs]
  | cons d deliveries ih =>
      unfold runLoop
      cases hrecorded : d.recorded with
      | false => simp [Loop.finish, recordedInputs, hrecorded]
      | true =>
          simp only [if_true]
          rw [ih, entries_turn]
          simp [logged, recordedInputs, hrecorded, input]

theorem streamed_runLoop (h : loop.Told told)
    (hroom : told.length + (loop.engine.emitted (recordedInputs eventBuffer deliveries)).length ≤ u64Max) :
    Streamed (runLoop eventBuffer loop deliveries).events (runLoop eventBuffer loop deliveries).eventsEmitted
      (runLoop eventBuffer loop deliveries).eventsDropped
      (told ++ loop.engine.emitted (recordedInputs eventBuffer deliveries)) := by
  induction deliveries generalizing loop told with
  | nil => simpa [runLoop, Loop.finish, recordedInputs, Engine.emitted, Engine.trace] using h.streamed
  | cons d deliveries ih =>
      unfold runLoop
      cases hrecorded : d.recorded with
      | false => simpa [Loop.finish, recordedInputs, hrecorded, Engine.emitted, Engine.trace] using h.streamed
      | true =>
          have hemitted : loop.engine.emitted (recordedInputs eventBuffer (d :: deliveries)) =
              loop.engine.emits (input eventBuffer d) ++
                (loop.turn eventBuffer d).engine.emitted (recordedInputs eventBuffer deliveries) := by
            simp [engine_turn, recordedInputs, hrecorded, Engine.emitted, Engine.trace]
          rw [hemitted, List.length_append] at hroom
          have hturn : (loop.turn eventBuffer d).Told (told ++ loop.engine.emits (input eventBuffer d)) :=
            h.turn d (by omega)
          have hrest := ih hturn (by rw [List.length_append]; omega)
          rw [List.append_assoc, ← hemitted] at hrest
          exact hrest

/-- Everything published in a round is in what its log replays to: each event under its
    position there, in order, with exactly the others counted as dropped. -/
theorem published_exact (e : Engine) (deliveries : List Delivery) (eventBuffer : Nat)
    (hroom : (e.emitted (logged eventBuffer (runEngine e deliveries eventBuffer).entries)).length ≤ u64Max) :
    Streamed (runEngine e deliveries eventBuffer).events (runEngine e deliveries eventBuffer).eventsEmitted
      (runEngine e deliveries eventBuffer).eventsDropped
      (e.emitted (logged eventBuffer (runEngine e deliveries eventBuffer).entries)) := by
  have hlogged : logged eventBuffer (runEngine e deliveries eventBuffer).entries =
      recordedInputs eventBuffer deliveries := logged_runLoop eventBuffer (.start e) deliveries
  rw [hlogged] at hroom ⊢
  have hempty : ([] : List Event).length + (e.emitted (recordedInputs eventBuffer deliveries)).length ≤ u64Max := by
    rwa [List.length_nil, Nat.zero_add]
  have hstreamed := streamed_runLoop (told_start e) hempty
  rwa [List.nil_append] at hstreamed

/-- A round whose event channel is full while the request is opened. -/
def patchy : List Delivery :=
  Engine.standingInputs.map fun i => ⟨i.command, i.now, true, fun _ => decide (i.now ≠ 1)⟩

/-- The opening of the request is missed; what follows keeps its number. -/
theorem published_exact_patchy :
    (runEngine Engine.opening patchy 8).events = [⟨1, .bestSelectionChanged ⟨0, 0⟩ 0 600000⟩] ∧
    Streamed (runEngine Engine.opening patchy 8).events (runEngine Engine.opening patchy 8).eventsEmitted
      (runEngine Engine.opening patchy 8).eventsDropped
      (Engine.opening.emitted (logged 8 (runEngine Engine.opening patchy 8).entries)) :=
  ⟨by decide +kernel, published_exact Engine.opening patchy 8 (by decide +kernel)⟩

end Venue

end RfqSettlement
