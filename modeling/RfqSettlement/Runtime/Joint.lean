/-
  RfqSettlement.Runtime.Joint

  The engine inside the harness: every harness reached holds an engine reached at
  instants that never go back, and what a move hands that engine has one of the
  effects of `Engine.Effect`.
-/

import RfqSettlement.Runtime.Effects
import RfqSettlement.Runtime.Wires
import Mathlib.Order.Monotone.Basic

namespace RfqSettlement

/-- The request a bundle settles, read off its nonce. -/
def Bundle.basket (b : Bundle) : ReqIdx := ⟨b.nonce.request, b.nonce.generation⟩

@[simp] theorem Bundle.nonce_basket (b : Bundle) : Nonce.of b.basket = b.nonce := rfl

theorem Bundle.basket_eq {b : Bundle} {r : ReqIdx} (h : b.nonce = Nonce.of r) : b.basket = r :=
  Nonce.of_injective h

namespace Harness

variable {config : Config} {clocks : Clocks} {ok : Harness → HarnessOp → Prop} {op : HarnessOp}
  {h h' : Harness} {commands commands' : List Command} {command : Command}

/-- The bundles of every settlement the engine has ordered, in order. -/
def intents (h : Harness) : List Bundle := h.emitted.filterMap bundleFrom

/-- What the engine is handed with the next command. -/
def input (clocks : Clocks) (h : Harness) (command : Command) : Engine.Input :=
  ⟨command, clocks.engine h.reads, eventCapacity⟩

/-- The bundles the next command hands over. -/
def bundles (clocks : Clocks) (h : Harness) (command : Command) : List Bundle :=
  (h.engine.emits (h.input clocks command)).filterMap bundleFrom

-- ============================================================================
-- One command
-- ============================================================================

@[simp] theorem engine_apply :
    (h.apply clocks command).2.engine = h.engine.step (h.input clocks command) := rfl
@[simp] theorem custody_apply : (h.apply clocks command).2.custody = h.custody := rfl
@[simp] theorem indexer_apply : (h.apply clocks command).2.indexer = h.indexer := rfl
@[simp] theorem indexerStalled_apply :
    (h.apply clocks command).2.indexerStalled = h.indexerStalled := rfl
@[simp] theorem inFlight_apply : (h.apply clocks command).2.inFlight = h.inFlight := rfl
@[simp] theorem included_apply : (h.apply clocks command).2.included = h.included := rfl
@[simp] theorem commands_apply : (h.apply clocks command).2.commands = h.commands := rfl
@[simp] theorem reads_apply : (h.apply clocks command).2.reads = h.reads + 1 := rfl
@[simp] theorem pending_apply :
    (h.apply clocks command).2.pending = h.pending ++ h.bundles clocks command := rfl
@[simp] theorem intents_apply :
    (h.apply clocks command).2.intents = h.intents ++ h.bundles clocks command :=
  List.filterMap_append

@[simp] theorem engine_deliver :
    (h.deliver clocks command).engine = h.engine.step (h.input clocks command) := rfl
@[simp] theorem custody_deliver : (h.deliver clocks command).custody = h.custody := rfl
@[simp] theorem indexer_deliver : (h.deliver clocks command).indexer = h.indexer := rfl
@[simp] theorem indexerStalled_deliver :
    (h.deliver clocks command).indexerStalled = h.indexerStalled := rfl
@[simp] theorem inFlight_deliver : (h.deliver clocks command).inFlight = h.inFlight := rfl
@[simp] theorem included_deliver : (h.deliver clocks command).included = h.included := rfl
@[simp] theorem commands_deliver :
    (h.deliver clocks command).commands = h.commands ++ [command] := rfl
@[simp] theorem reads_deliver : (h.deliver clocks command).reads = h.reads + 1 := rfl
@[simp] theorem pending_deliver :
    (h.deliver clocks command).pending = h.pending ++ h.bundles clocks command := rfl
@[simp] theorem intents_deliver :
    (h.deliver clocks command).intents = h.intents ++ h.bundles clocks command :=
  List.filterMap_append

-- ============================================================================
-- The engine of a harness
-- ============================================================================

/-- The engine was reached at instants that never go back, up to the next reading. -/
def Timed (config : Config) (clocks : Clocks) (h : Harness) : Prop :=
  ∃ now, now ≤ clocks.engine h.reads ∧ Engine.ReachableAt config now h.engine

theorem timed_new (hnew : new config = .ok h) : Timed config clocks h := by
  obtain ⟨engine, hengine, rfl⟩ := new_eq_ok hnew
  exact ⟨0, Nat.zero_le _, .new 0 hengine⟩

theorem Timed.sane (ht : Timed config clocks h) : h.engine.Sane := by
  obtain ⟨now, -, hreach⟩ := ht
  exact hreach.sane

theorem Timed.config_eq (ht : Timed config clocks h) : h.engine.config = config := by
  obtain ⟨now, -, hreach⟩ := ht
  exact hreach.config_eq

theorem Timed.backed (ht : Timed config clocks h) : h.engine.market.Backed (clocks.engine h.reads) := by
  obtain ⟨now, hle, hreach⟩ := ht
  exact hreach.backed.mono hle

/-- Nothing but time touched the engine. -/
theorem Timed.same (ht : Timed config clocks h) (hmono : Monotone clocks.engine)
    (hengine : h'.engine = h.engine) (hreads : h.reads ≤ h'.reads) : Timed config clocks h' := by
  obtain ⟨now, hle, hreach⟩ := ht
  exact ⟨now, hle.trans (hmono hreads), hengine ▸ hreach⟩

theorem Timed.step (ht : Timed config clocks h) (hmono : Monotone clocks.engine)
    (hengine : h'.engine = h.engine.step (h.input clocks command)) (hreads : h'.reads = h.reads + 1) :
    Timed config clocks h' := by
  obtain ⟨now, hle, hreach⟩ := ht
  exact ⟨_, hreads ▸ hmono (Nat.le_succ _), hengine ▸ hreach.step (h.input clocks command) hle⟩

/-- What the next command does. -/
theorem Timed.effect (ht : Timed config clocks h) (command : Command) :
    Engine.Effect (clocks.engine h.reads) h.engine (h.engine.step (h.input clocks command))
      (h.bundles clocks command) command := by
  show Engine.Effect (h.input clocks command).now _ _ _ (h.input clocks command).command
  exact ht.sane.effect ht.backed (Nat.le_refl _) (show MAX_LEGS + 1 ≤ eventCapacity by decide)

theorem Timed.move (ht : Timed config clocks h) (hmono : Monotone clocks.engine)
    (hmove : Move clocks ok op h commands h' commands') : Timed config clocks h' := by
  cases hmove with
  | applied => exact ht.step hmono rfl rfl
  | polled => exact ht.step hmono rfl rfl
  | delivered => exact ht.step hmono rfl rfl
  | requested => exact ht.same hmono rfl (Nat.le_succ _)
  | executed => exact ht.same hmono rfl (Nat.le_succ _)
  | included => exact ht.same hmono rfl (Nat.le_succ _)
  | _ => exact ht.same hmono rfl (Nat.le_refl _)

end Harness

end RfqSettlement
