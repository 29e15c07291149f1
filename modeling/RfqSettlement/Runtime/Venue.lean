/-
  RfqSettlement.Runtime.Venue

  The engine thread's loop and the replay of its command log.

    * `runEngine`  the loop of `run_engine`: sample, apply, record, publish.
      What the three channels do is in the `Delivery` list: a delivery is a
      command the inbox held, with the instant sampled for it and the answers of
      the `try_send`s it leads to.  An empty inbox spins and is not modelled; the
      debug assertion on claim coverage is in `Core.Asserting`.
    * `replay`  a fresh engine fed the recorded commands at the recorded instants.
-/

import RfqSettlement.Core.Runs

namespace RfqSettlement

/-- One entry of the command log; `instant` is the source's `at`. -/
structure LogEntry where
  sequence : Nat
  instant : Nat
  command : Command
  outcome : Except EngineError Unit

/-- An event with its position in the order of everything ever emitted. -/
structure Sequenced where
  sequence : Nat
  event : Event
deriving DecidableEq, Repr

/-- Why the engine stopped applying commands. -/
inductive HaltReason where
  | channelClosed
  | logUnrecordable
deriving DecidableEq, Repr

/-- A command received, the instant sampled for it, whether the log channel takes
    its entry, and which of its events the event channel takes. -/
structure Delivery where
  command : Command
  now : Nat
  recorded : Bool
  published : Nat → Bool

/-- What a finished round returns, with what its two channels were handed. -/
structure EngineRound where
  engine : Engine
  coverageChecks : Nat
  eventsDropped : Nat
  eventsEmitted : Nat
  halted : HaltReason
  entries : List LogEntry
  events : List Sequenced

namespace Venue

/-- The variables of the loop. -/
structure Loop where
  engine : Engine
  sequence : Nat
  eventSequence : Nat
  coverageChecks : Nat
  eventsEmitted : Nat
  eventsDropped : Nat
  entries : List LogEntry
  events : List Sequenced

/-- The loop before its first command. -/
def Loop.start (engine : Engine) : Loop := ⟨engine, 0, 0, 0, 0, 0, [], []⟩

/-- One event offered to the publisher. -/
def Loop.offer (loop : Loop) (taken : Bool) (event : Event) : Loop :=
  let sequenced : Sequenced := ⟨loop.eventSequence, event⟩
  let loop := { loop with eventSequence := saturatingAdd loop.eventSequence 1 }
  if taken then
    { loop with
      eventsEmitted := saturatingAdd loop.eventsEmitted 1
      events := loop.events ++ [sequenced] }
  else { loop with eventsDropped := saturatingAdd loop.eventsDropped 1 }

/-- The drained buffer, offered event by event. -/
def Loop.publish (loop : Loop) (published : Nat → Bool) (events : List Event) : Loop :=
  events.zipIdx.foldl (fun loop x => loop.offer (published x.2) x.1) loop

/-- The round a loop comes to when it halts. -/
def Loop.finish (loop : Loop) (halted : HaltReason) : EngineRound :=
  ⟨loop.engine, loop.coverageChecks, loop.eventsDropped, loop.eventsEmitted, halted, loop.entries,
    loop.events⟩

/-- The entry of a delivery whose record the log channel takes. -/
def Loop.record (loop : Loop) (d : Delivery) (outcome : Except EngineError Unit) : Loop :=
  { loop with
    entries := loop.entries ++ [⟨loop.sequence, d.now, d.command, outcome⟩]
    sequence := saturatingAdd loop.sequence 1 }

/-- One turn of the loop on a delivery that is recorded: apply, record, publish. -/
def Loop.turn (eventBuffer : Nat) (loop : Loop) (d : Delivery) : Loop :=
  let (outcome, engine, events) :=
    loop.engine.apply d.command d.now (.withCapacity eventBuffer)
  let loop := ({ loop with engine }.record d outcome).publish d.published events.events
  { loop with coverageChecks := saturatingAdd loop.coverageChecks 1 }

/-- The loop over what the inbox delivers, until it is closed or an entry cannot be
    recorded.  The entry is offered to the log after the command was applied. -/
def runLoop (eventBuffer : Nat) : Loop → List Delivery → EngineRound
  | loop, [] => loop.finish .channelClosed
  | loop, d :: deliveries =>
    if d.recorded then runLoop eventBuffer (loop.turn eventBuffer d) deliveries
    else
      let (_, engine, _) := loop.engine.apply d.command d.now (.withCapacity eventBuffer)
      { loop with engine }.finish .logUnrecordable

def runEngine (engine : Engine) (deliveries : List Delivery) (eventBuffer : Nat) : EngineRound :=
  runLoop eventBuffer (.start engine) deliveries

/-- The replay of a log on an engine, and whether the engine answered every command
    as the log says. -/
def replayFrom (eventBuffer : Nat) : Engine → List LogEntry → Engine × Bool
  | engine, [] => (engine, true)
  | engine, entry :: log =>
    let (outcome, engine, _) :=
      engine.apply entry.command entry.instant (.withCapacity eventBuffer)
    let (final, agrees) := replayFrom eventBuffer engine log
    (final, decide (outcome = entry.outcome) && agrees)

/-- A command log replayed through a fresh engine. -/
def replay (config : Config) (log : List LogEntry) (eventBuffer : Nat) :
    Except ConfigError (Engine × Bool) :=
  (Engine.new config).map fun engine => replayFrom eventBuffer engine log

-- ============================================================================
-- What a round runs and what it records
-- ============================================================================

variable {loop : Loop} {e : Engine} {deliveries : List Delivery} {eventBuffer : Nat}

/-- The input the engine sees of a delivery. -/
def input (eventBuffer : Nat) (d : Delivery) : Engine.Input := ⟨d.command, d.now, eventBuffer⟩

/-- The inputs whose entries the log channel took, up to the first it did not. -/
def recordedInputs (eventBuffer : Nat) (deliveries : List Delivery) : List Engine.Input :=
  (deliveries.takeWhile Delivery.recorded).map (input eventBuffer)

/-- The delivery a round halts on, if the log channel refuses an entry. -/
def unrecorded (deliveries : List Delivery) : Option Delivery :=
  (deliveries.dropWhile Delivery.recorded).head?

@[simp] theorem engine_publish (published : Nat → Bool) (events : List Event) :
    (loop.publish published events).engine = loop.engine := by
  unfold Loop.publish
  induction events.zipIdx generalizing loop with
  | nil => rfl
  | cons x xs ih =>
      rw [List.foldl_cons, ih]
      simp only [Loop.offer]
      split <;> rfl

@[simp] theorem entries_publish (published : Nat → Bool) (events : List Event) :
    (loop.publish published events).entries = loop.entries := by
  unfold Loop.publish
  induction events.zipIdx generalizing loop with
  | nil => rfl
  | cons x xs ih =>
      rw [List.foldl_cons, ih]
      simp only [Loop.offer]
      split <;> rfl

theorem engine_turn (d : Delivery) :
    (loop.turn eventBuffer d).engine = loop.engine.step (input eventBuffer d) :=
  engine_publish _ _

theorem entries_turn (d : Delivery) :
    (loop.turn eventBuffer d).entries = loop.entries ++
      [⟨loop.sequence, d.now, d.command, (loop.engine.answer (input eventBuffer d)).1⟩] :=
  entries_publish _ _

/-- The loop applies the recorded inputs and the one it halts on. -/
theorem engine_runLoop :
    (runLoop eventBuffer loop deliveries).engine =
      loop.engine.run (recordedInputs eventBuffer deliveries ++
        (unrecorded deliveries).toList.map (input eventBuffer)) := by
  induction deliveries generalizing loop with
  | nil => rfl
  | cons d deliveries ih =>
      unfold runLoop
      cases hrecorded : d.recorded with
      | false =>
          simp [hrecorded, recordedInputs, unrecorded, Loop.finish, Engine.run, Engine.step,
            Engine.answer, input]
      | true =>
          simp only [if_true]
          rw [ih, engine_turn]
          simp [hrecorded, recordedInputs, unrecorded, Engine.run]

/-- Replaying what the loop records applies the recorded inputs, and the answers
    agree. -/
theorem replayFrom_runLoop (eventBuffer : Nat) (loop : Loop) (deliveries : List Delivery) :
    ∃ log, (runLoop eventBuffer loop deliveries).entries = loop.entries ++ log ∧
      replayFrom eventBuffer loop.engine log =
        (loop.engine.run (recordedInputs eventBuffer deliveries), true) := by
  induction deliveries generalizing loop with
  | nil => exact ⟨[], by simp [runLoop, Loop.finish], rfl⟩
  | cons d deliveries ih =>
      unfold runLoop
      cases hrecorded : d.recorded with
      | false =>
          exact ⟨[], by simp [Loop.finish], by simp [recordedInputs, hrecorded, replayFrom, Engine.run]⟩
      | true =>
          obtain ⟨log, hentries, hreplay⟩ := ih (loop.turn eventBuffer d)
          rw [entries_turn, List.append_assoc] at hentries
          rw [engine_turn] at hreplay
          refine ⟨_, hentries, ?_⟩
          have hstep : (loop.engine.apply d.command d.now (.withCapacity eventBuffer)).2.1 =
              loop.engine.step (input eventBuffer d) := rfl
          have hanswer : (loop.engine.apply d.command d.now (.withCapacity eventBuffer)).1 =
              (loop.engine.answer (input eventBuffer d)).1 := rfl
          simp only [List.singleton_append, replayFrom, hstep, hanswer, hreplay]
          simp [recordedInputs, hrecorded, Engine.run]

/-- What a replay of the log of a round comes to. -/
theorem replay_runEngine {config : Config} (h : Engine.new config = .ok e) :
    replay config (runEngine e deliveries eventBuffer).entries eventBuffer =
      .ok (e.run (recordedInputs eventBuffer deliveries), true) := by
  obtain ⟨log, hentries, hreplay⟩ :=
    replayFrom_runLoop eventBuffer (.start e) deliveries
  rw [runEngine, hentries, replay, h]
  exact congrArg Except.ok hreplay

/-- A round replays to the engine that ran it exactly when the command it halts on,
    if it halts on one, changed nothing. -/
theorem replay_eq_engine_iff {config : Config} (h : Engine.new config = .ok e)
    (deliveries : List Delivery) (eventBuffer : Nat) :
    (replay config (runEngine e deliveries eventBuffer).entries eventBuffer).map Prod.fst =
        .ok (runEngine e deliveries eventBuffer).engine ↔
      ∀ d, unrecorded deliveries = some d →
        (e.run (recordedInputs eventBuffer deliveries)).step (input eventBuffer d) =
          e.run (recordedInputs eventBuffer deliveries) := by
  rw [replay_runEngine h, runEngine, engine_runLoop]
  simp only [Loop.start, Except.map, Except.ok.injEq]
  cases unrecorded deliveries with
  | none => simp
  | some d =>
      simp only [Engine.run, Option.toList_some, List.map_cons, List.map_nil, List.foldl_append,
        List.foldl_cons, List.foldl_nil, Option.some.injEq, forall_eq']
      exact eq_comm

/-- A log channel that refuses the entry of an unknown account's credit. -/
def refusedCredit : List Delivery :=
  [⟨.creditAccount 0 5, 1, true, fun _ => true⟩, ⟨.creditAccount 9 5, 2, false, fun _ => true⟩]

/-- A round halted on a command that changed nothing replays. -/
theorem replay_eq_engine_iff_refusedCredit :
    (replay Config.small (runEngine ⟨Config.small, Ledger.new Config.small, 0⟩ refusedCredit 8).entries
        8).map Prod.fst =
      .ok (runEngine ⟨Config.small, Ledger.new Config.small, 0⟩ refusedCredit 8).engine :=
  (replay_eq_engine_iff (show Engine.new Config.small =
    .ok ⟨Config.small, Ledger.new Config.small, 0⟩ from rfl) _ _).mpr (by decide +kernel)

/-- The command a full log channel halts on has been applied, and is not replayed. -/
theorem unrecorded_command_is_applied :
    ¬ ∀ (config : Config) (e : Engine) (deliveries : List Delivery) (eventBuffer : Nat),
      Engine.new config = .ok e → deliveries.Pairwise (fun a b => a.now ≤ b.now) →
        (replay config (runEngine e deliveries eventBuffer).entries eventBuffer).map Prod.fst =
          .ok (runEngine e deliveries eventBuffer).engine := by
  intro h
  have hsame := h Config.small ⟨Config.small, Ledger.new Config.small, 0⟩
    [⟨.creditAccount 0 5, 1, false, fun _ => true⟩] 8 rfl (by simp)
  exact absurd hsame (by decide +kernel)

end Venue

end RfqSettlement
