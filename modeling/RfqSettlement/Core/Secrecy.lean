/-
  RfqSettlement.Core.Secrecy

  What a requester keeps to itself stays its own.

  Two runs may differ in everything `a` knows alone: what is credited to it, the limits of
  the legs it asks for, and what it expects of an accept.  As long as each of `a`'s own
  requests, quotes and accepts is admitted in both or in neither, everyone else sees the
  same run: the same answers, the same events under the same handles, and the same state
  but for `a`'s totals, amounts, limits and feed.
-/

import RfqSettlement.Core.AlikeSettling
import RfqSettlement.Core.Refusals
import RfqSettlement.Core.Resolution

namespace RfqSettlement

namespace Engine

variable {a : Nat} {e e' : Engine} {own : Prop} {shown : Event → Bool} {b : EventBuffer} {now : Nat}
  {command command' : Command} {config : Config}

-- ============================================================================
-- Commands
-- ============================================================================

def requesterOf (e : Engine) (r : ReqIdx) : Option Nat := (e.ledger.request r).map Request.requester

/-- Whether a command consults what `a` keeps to itself: it is a request, a quote or an
    accept of its own. -/
def consults (a : Nat) (e : Engine) : Command → Bool
  | .submitRequest requester _ _ => decide (requester = a)
  | .submitQuote maker .. => decide (maker = a)
  | .acceptRequest r _ => decide (e.requesterOf r = some a)
  | _ => false

/-- Two commands that differ in nothing but what `a` alone knows. -/
inductive AlikeCommand (a : Nat) (e : Engine) : Command → Command → Prop where
  | same (command : Command) : AlikeCommand a e command command
  | credited (free free' : Nat) : AlikeCommand a e (.creditAccount a free) (.creditAccount a free')
  | requested {deadline : Nat} {specs specs' : List LegSpec}
      (h : List.Forall₂ (LegSpec.Alike True) specs specs') :
      AlikeCommand a e (.submitRequest a deadline specs) (.submitRequest a deadline specs')
  | accepted {r : ReqIdx} (expected expected' : List ExpectedFill) (hown : e.requesterOf r = some a) :
      AlikeCommand a e (.acceptRequest r expected) (.acceptRequest r expected')

theorem Answer.Alike.mono {own' : Prop} {x x' : Answer} (h : Answer.Alike a own shown x x')
    (himp : own → own') : Answer.Alike a own' shown x x' :=
  ⟨h.answer.mono himp, h.engine, h.events⟩

theorem Alike.creditAccount (h : Alike a e e') (i : Nat) {free free' : Nat} (hfree : i ≠ a → free = free') :
    Answer.Alike a own shown (e.perform (.creditAccount i free) now b)
      (e'.perform (.creditAccount i free') now b) := by
  obtain ⟨hanswer, hledger⟩ := h.ledger.applyMirrorUpdate i hfree
  unfold Engine.perform
  dsimp only
  generalize e.ledger.applyMirrorUpdate i free = x at hanswer hledger ⊢
  generalize e'.ledger.applyMirrorUpdate i free' = x' at hanswer hledger ⊢
  obtain ⟨answer, l⟩ := x
  obtain ⟨answer', l'⟩ := x'
  obtain rfl : answer = answer' := hanswer
  cases answer with
  | error err => exact (h.withLedger hledger).refuse fun _ => rfl
  | ok value => exact h.done ⟨hledger, rfl⟩

theorem Alike.registerContract (h : Alike a e e') (contract date : Nat) :
    Answer.Alike a own shown (e.perform (.registerContract contract date) now b)
      (e'.perform (.registerContract contract date) now b) := by
  obtain ⟨hanswer, hledger⟩ := h.ledger.registerContract contract date
  unfold Engine.perform
  dsimp only
  generalize e.ledger.registerContract contract date = x at hanswer hledger ⊢
  generalize e'.ledger.registerContract contract date = x' at hanswer hledger ⊢
  obtain ⟨answer, l⟩ := x
  obtain ⟨answer', l'⟩ := x'
  obtain rfl : answer = answer' := hanswer
  cases answer with
  | error err => exact (h.withLedger hledger).refuse fun _ => rfl
  | ok value => exact h.done ⟨hledger, rfl⟩

theorem Alike.cancelQuote (h : Alike a e e') (q : QuoteIdx) :
    Answer.Alike a own shown (e.perform (.cancelQuote q) now b) (e'.perform (.cancelQuote q) now b) := by
  unfold Engine.perform
  dsimp only
  rw [h.ledger.quote]
  split
  · exact h.refuse fun _ => rfl
  · exact h.refuse fun _ => rfl

/-- The command itself, on two engines that are normalised. -/
theorem Alike.perform (h : Alike a e e') (hs : e.Sane) (hs' : e'.Sane)
    (hcommand : AlikeCommand a e command command')
    (hshown : ∀ event, e.ledger.confidential a event = true → shown event = false)
    (hsame : e.consults a command = true →
      (e.perform command now b).1.isOk = (e'.perform command' now b).1.isOk) :
    Answer.Alike a (e.consults a command = true) shown (e.perform command now b)
      (e'.perform command' now b) := by
  cases hcommand with
  | credited free free' => exact h.creditAccount a fun hne => absurd rfl hne
  | requested hspecs =>
      have hspecs := hspecs.imp fun s s' hs => (⟨hs.contract, hs.side, hs.size, fun hne => absurd rfl hne⟩ :
        LegSpec.Alike (a = a) s s')
      exact (h.submitRequest hs hs' hspecs fun _ => hsame (by simp [consults])).mono fun _ => by simp [consults]
  | accepted expected expected' hown =>
      exact (h.acceptRequest hs (fun hne => absurd hown hne) fun _ => hsame (by simp [consults, hown])).mono
        fun _ => by simp [consults, hown]
  | same =>
      cases command with
      | creditAccount i free => exact h.creditAccount i fun _ => rfl
      | registerContract contract date => exact h.registerContract contract date
      | submitRequest requester deadline specs =>
          have hspecs : List.Forall₂ (LegSpec.Alike (requester = a)) specs specs :=
            List.forall₂_same.mpr fun s _ => ⟨rfl, rfl, rfl, fun _ => rfl⟩
          exact (h.submitRequest hs hs' hspecs fun hown => hsame (decide_eq_true hown)).mono decide_eq_true
      | rejectRequest r => exact h.rejectRequest r
      | submitQuote maker r i price size expiresAt =>
          exact (h.submitQuote hs hs' hshown fun hown => hsame (decide_eq_true hown)).mono decide_eq_true
      | cancelQuote q => exact h.cancelQuote q
      | acceptRequest r expected =>
          exact (h.acceptRequest hs (fun _ => rfl) fun hown => hsame (decide_eq_true hown)).mono decide_eq_true
      | pollSettlement nonce status => exact h.pollSettlement nonce status
      | reportOracleStatus contract status => exact h.reportOracleStatus contract status
      | settleEscrow escrow contract => exact h.settleEscrow escrow contract

-- ============================================================================
-- Inputs
-- ============================================================================

theorem Alike.requesterOf (h : Alike a e e') (r : ReqIdx) : e.requesterOf r = e'.requesterOf r :=
  Entrywise.map_eq (h.ledger.request r) fun _ _ hy => hy.requester

/-- Two commands alike touch the same accounts. -/
theorem Alike.touchedAccounts (h : Alike a e e') (hcommand : AlikeCommand a e command command') :
    e.touchedAccounts command = e'.touchedAccounts command' := by
  have hrequesters : ∀ r, (e.ledger.request r).map Request.requester =
      (e'.ledger.request r).map Request.requester := h.requesterOf
  cases hcommand with
  | credited free free' => rfl
  | requested hspecs => rfl
  | accepted expected expected' hown => simp only [Engine.touchedAccounts, hrequesters]
  | same =>
      cases command with
      | pollSettlement nonce status =>
          rw [Engine.touchedAccounts, Engine.touchedAccounts, resolveNonce h.ledger]
          cases Engine.resolveNonce e'.ledger nonce with
          | none => rfl
          | some r => simp only [Option.bind_some, hrequesters]
      | cancelQuote q => simp only [Engine.touchedAccounts, h.ledger.quote]
      | _ => simp only [Engine.touchedAccounts, hrequesters]

/-- Normalisation of the same accounts leaves them alike. -/
theorem Alike.normaliseAll (h : Alike a e e') (hs : e.Sane) (accounts : List Nat) (now : Nat) :
    Alike a (e.normaliseAll accounts now) (e'.normaliseAll accounts now) := by
  induction accounts generalizing e e' with
  | nil => exact h
  | cons account accounts ih =>
      have hnormalised : Alike a (e.normalise account now) (e'.normalise account now) :=
        ⟨h.config, h.ledger.releaseExpired hs.healthy.intact account now, h.nextArrival⟩
      exact ih hnormalised (hs.normalise now account).sane

/-- Normalisation changes no requester. -/
theorem Sane.requesterOf_normalisedFor (h : e.Sane) (input : Input) (r : ReqIdx) :
    (e.normalisedFor input).requesterOf r = e.requesterOf r := by
  have hrecords : Ledger.SameRecords e.ledger (e.normalisedFor input).ledger := h.sameRecords_normaliseAll _
  have hbare := hrecords.requests r
  have hrequester := congrArg (Option.map Request.requester) hbare
  rwa [Option.map_map, Option.map_map] at hrequester

theorem Sane.consults_normalisedFor (h : e.Sane) (input : Input) (command : Command) :
    (e.normalisedFor input).consults a command = e.consults a command := by
  cases command <;> simp only [consults, h.requesterOf_normalisedFor]

theorem Sane.confidential_normalisedFor (h : e.Sane) (input : Input) :
    (e.normalisedFor input).ledger.confidential a = e.ledger.confidential a := by
  funext event
  cases event with
  | bestSelectionChanged r i price =>
      have hrequester := h.requesterOf_normalisedFor input r
      simp only [Engine.requesterOf] at hrequester
      simp only [Ledger.confidential, hrequester]
  | _ => rfl

/-- Two inputs that differ in nothing but what `a` alone knows, each with the engine it
    finds: where that is what they consult, they are admitted by both engines or by neither. -/
structure AlikeInput (a : Nat) (x x' : Engine × Input) : Prop where
  command : AlikeCommand a x.1 x.2.command x'.2.command
  now : x.2.now = x'.2.now
  capacity : x.2.capacity = x'.2.capacity
  verdict : x.1.consults a x.2.command = true → (x.1.answer x.2).1.isOk = (x'.1.answer x'.2).1.isOk

/-- One input. -/
theorem Alike.answer {input input' : Input} (h : Alike a e e') (hs : e.Sane) (hs' : e'.Sane)
    (hinput : AlikeInput a (e, input) (e', input')) :
    Answer.Alike a (e.consults a input.command = true) (fun event => !e.ledger.confidential a event)
      (e.answer input) (e'.answer input') := by
  obtain ⟨command, now, capacity⟩ := input
  obtain ⟨command', now', capacity'⟩ := input'
  obtain ⟨hcommand, rfl, rfl, hverdict⟩ := hinput
  have hn := h.normaliseAll hs (e.touchedAccounts command) now
  have htouched := h.touchedAccounts hcommand
  have hnormal : e.normalisedFor ⟨command, now, capacity⟩ = e.normaliseAll (e.touchedAccounts command) now := rfl
  have hnormalised : AlikeCommand a (e.normalisedFor ⟨command, now, capacity⟩) command command' := by
    cases hcommand with
    | same => exact .same _
    | credited free free' => exact .credited free free'
    | requested hspecs => exact .requested hspecs
    | accepted expected expected' hown =>
        exact .accepted expected expected' ((hs.requesterOf_normalisedFor _ _).trans hown)
  have hshown : ∀ event, (e.normaliseAll (e.touchedAccounts command) now).ledger.confidential a event = true →
      (!e.ledger.confidential a event) = false := by
    intro event hconfidential
    rw [← hnormal, hs.confidential_normalisedFor] at hconfidential
    rw [hconfidential]
    rfl
  have hanswer := hn.perform (hs.normalised command now).sane (htouched ▸ (hs'.normalised command' now).sane)
    hnormalised hshown fun hconsults => by
      rw [← hnormal, hs.consults_normalisedFor] at hconsults
      have hok := hverdict hconsults
      rwa [Engine.answer, Engine.answer, Engine.apply, Engine.apply, ← htouched] at hok
  rw [← hnormal, hs.consults_normalisedFor] at hanswer
  rwa [Engine.answer, Engine.answer, Engine.apply, Engine.apply, ← htouched]

-- ============================================================================
-- Runs
-- ============================================================================

/-- What everyone but `a` sees of an input: whether it was admitted, why it was refused
    unless that is `a`'s own, and the events but the feed of `a`'s own requests. -/
def sight (a : Nat) (e : Engine) (input : Input) : Except (Option EngineError) Unit × List Event :=
  ((e.answer input).1.mapError fun err => if e.consults a input.command then none else some err,
    (e.emits input).filter fun event => !e.ledger.confidential a event)

theorem Alike.consults (h : Alike a e e') (hcommand : AlikeCommand a e command command') :
    e.consults a command = e'.consults a command' := by
  cases hcommand with
  | credited free free' => rfl
  | requested hspecs => rfl
  | accepted expected expected' hown => simp only [Engine.consults, h.requesterOf]
  | same => cases command <;> simp only [Engine.consults, h.requesterOf]

/-- What is seen of two inputs alike. -/
theorem Alike.sight {input input' : Input} (h : Alike a e e') (hs : e.Sane) (hs' : e'.Sane)
    (hinput : AlikeInput a (e, input) (e', input')) :
    e.sight a input = e'.sight a input' ∧ Alike a (e.step input) (e'.step input') := by
  have hanswer := h.answer hs hs' hinput
  have hconsults := h.consults hinput.command
  refine ⟨Prod.ext ?_ ?_, hanswer.engine⟩
  · have hsame := hanswer.answer
    dsimp only [Engine.sight]
    dsimp only at hconsults
    rw [← hconsults]
    generalize (e.answer input).1 = x at hsame ⊢
    generalize (e'.answer input').1 = x' at hsame ⊢
    cases hsame with
    | ok value => rfl
    | error herr =>
        simp only [Except.mapError]
        split
        · rfl
        next hown => rw [herr hown]
  · have hevents := hanswer.events
    dsimp only [Engine.sight]
    rwa [← h.ledger.confidential]

/-- Everyone but `a` sees the same run: two runs from engines that differ only in what `a`
    keeps to itself, on inputs that do, and that are admitted alike where they consult it. -/
theorem sights_alike {inputs inputs' : List Input} (h : Reachable config e) (h' : Reachable config e')
    (halike : Alike a e e')
    (hinputs : List.Forall₂ (AlikeInput a) (e.trace inputs) (e'.trace inputs')) :
    (e.trace inputs).map (fun x => x.1.sight a x.2) = (e'.trace inputs').map (fun x => x.1.sight a x.2) ∧
      Alike a (e.run inputs) (e'.run inputs') := by
  induction inputs generalizing e e' inputs' with
  | nil =>
      cases inputs' with
      | nil => exact ⟨rfl, halike⟩
      | cons input' inputs' => cases hinputs
  | cons input inputs ih =>
      cases inputs' with
      | nil => cases hinputs
      | cons input' inputs' =>
          obtain ⟨hinput, hrest⟩ := List.forall₂_cons.mp hinputs
          obtain ⟨hsight, hstep⟩ := halike.sight (sane_of_reachable h) (sane_of_reachable h') hinput
          obtain ⟨hsights, hrun⟩ := ih (h.step input) (h'.step input') hstep hrest
          refine ⟨?_, hrun⟩
          rw [Engine.trace, Engine.trace, List.map_cons, List.map_cons, hsight, hsights]

/-- A trade whose requester is credited `free` and bids up to `limit`. -/
def bidding (free limit : Nat) : List Input :=
  [⟨.creditAccount 0 free, 0, 8⟩, ⟨.creditAccount 1 800000, 0, 8⟩, ⟨.registerContract 0 1000, 0, 8⟩,
    ⟨.submitRequest 0 50 [⟨0, .yes, 2, limit⟩], 1, 8⟩, ⟨.submitQuote 1 ⟨0, 0⟩ 0 650000 2 40, 2, 8⟩,
    ⟨.submitQuote 1 ⟨0, 0⟩ 0 600000 2 40, 3, 8⟩, ⟨.acceptRequest ⟨0, 0⟩ [⟨0, limit⟩], 5, 8⟩,
    ⟨.pollSettlement ⟨0, 0⟩ .settled, 6, 8⟩]

/-- The maker who undercuts itself does not learn that its first quote was beyond the limit,
    though the requester is shown it in one of the two. -/
theorem sights_alike_bidding :
    (opening.emitted (bidding 2000000 900000) ≠ opening.emitted (bidding 1300000 620000)) ∧
    (opening.trace (bidding 2000000 900000)).map (fun x => x.1.sight 0 x.2) =
      (opening.trace (bidding 1300000 620000)).map (fun x => x.1.sight 0 x.2) ∧
    Alike 0 (opening.run (bidding 2000000 900000)) (opening.run (bidding 1300000 620000)) := by
  have hnew : Reachable Config.small opening := .new rfl
  refine ⟨by decide +kernel, sights_alike hnew hnew (.refl _) ?_⟩
  have hspecs : List.Forall₂ (LegSpec.Alike True) [⟨0, .yes, 2, 900000⟩] [⟨0, .yes, 2, 620000⟩] :=
    .cons ⟨rfl, rfl, rfl, fun hother => absurd trivial hother⟩ .nil
  exact .cons ⟨.credited 2000000 1300000, rfl, rfl, by decide +kernel⟩
    (.cons ⟨.same _, rfl, rfl, by decide +kernel⟩
    (.cons ⟨.same _, rfl, rfl, by decide +kernel⟩
    (.cons ⟨.requested hspecs, rfl, rfl, by decide +kernel⟩
    (.cons ⟨.same _, rfl, rfl, by decide +kernel⟩
    (.cons ⟨.same _, rfl, rfl, by decide +kernel⟩
    (.cons ⟨.accepted _ _ (by decide +kernel), rfl, rfl, by decide +kernel⟩
    (.cons ⟨.same _, rfl, rfl, by decide +kernel⟩ .nil)))))))

end Engine

end RfqSettlement
