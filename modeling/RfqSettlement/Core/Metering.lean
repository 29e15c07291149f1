/-
  RfqSettlement.Core.Metering

  What a command pushes, and the room it asks for first.

  `Pours` says that a piece of a commit phase, run on any buffer at all, pushes one fixed
  list of events: what is pushed never depends on what the buffer has room for.
  `Metered` says the same of a handler, with the number it hands to `headroom`: it looks
  at the buffer by that one check, and what it then pushes is no more than it asked for.
-/

import RfqSettlement.Core.Refusals
import RfqSettlement.Core.Sites

namespace RfqSettlement

-- ============================================================================
-- Pieces of a commit phase
-- ============================================================================

namespace EventBuffer

variable {b : EventBuffer} {new : List Event}

/-- Pushes that all find room. -/
theorem foldl_push_of_room (h : b.events.length + new.length ≤ b.capacity) :
    new.foldl push b = ⟨b.events ++ new, b.capacity⟩ := by
  induction new generalizing b with
  | nil => simp
  | cons event new ih =>
      rw [List.length_cons] at h
      rw [List.foldl_cons, push_of_room (by omega), ih]
      · simp
      · show (b.events ++ [event]).length + new.length ≤ b.capacity
        rw [List.length_append, List.length_singleton]
        omega

end EventBuffer

open EventBuffer (push withCapacity)

/-- Run on any buffer, `G` leaves the ledger `l'` and pushes `new`, one event after another. -/
def Pours (G : EventBuffer → Work) (l' : Ledger) (new : List Event) : Prop :=
  ∀ b, G b = (l', new.foldl push b)

/-- With room to spare, what is poured is what is there. -/
theorem Pours.events_eq {G : EventBuffer → Work} {l' : Ledger} {new : List Event}
    (h : Pours G l' new) (spare : Nat) :
    (G (withCapacity (new.length + spare))).2.events = new := by
  rw [h, EventBuffer.foldl_push_of_room]
  · simp [withCapacity]
  · simp [withCapacity]

namespace Work

variable {r : ReqIdx} {i now : Nat} {q : QuoteIdx} {reason : QuoteRejectReason}
  {keep : Option Selection}

/-- A piece that pushes a fixed list, from any ledger. -/
def Poured (F : Work → Work) : Prop := ∀ l, ∃ l' new, Pours (fun b => F (l, b)) l' new

theorem poured_id : Poured fun w => w := fun l => ⟨l, [], fun _ => rfl⟩

theorem Poured.comp {F F' : Work → Work} (hF' : Poured F') (hF : Poured F) :
    Poured fun w => F' (F w) := by
  intro l
  obtain ⟨l₁, new, h⟩ := hF l
  obtain ⟨l₂, new', h'⟩ := hF' l₁
  refine ⟨l₂, new ++ new', fun b => ?_⟩
  have hb := h b
  dsimp only at hb ⊢
  rw [hb, List.foldl_append]
  exact h' _

theorem poured_foldl {β : Type} {F : Work → β → Work} (hF : ∀ x, Poured fun w => F w x)
    (xs : List β) : Poured fun w => xs.foldl F w := by
  induction xs with
  | nil => exact poured_id
  | cons x xs ih => exact ih.comp (hF x)

theorem poured_releaseQuote : Poured fun w => w.releaseQuote r i now reason q := by
  intro l
  cases hq : l.quote q with
  | none => exact ⟨l, [], fun b => by simp only [releaseQuote, hq, List.foldl_nil]⟩
  | some x =>
      refine ⟨l.retireQuote r i q x.claim, [if x.isLiveAt now then .quoteRejected q x.maker reason
        else .quoteExpired q x.maker], fun b => ?_⟩
      simp only [releaseQuote, hq, List.foldl_cons, List.foldl_nil]

theorem poured_releaseLeg : Poured fun w => w.releaseLeg r i keep now reason := by
  intro l
  cases hleg : l.legOf r i with
  | none => exact ⟨l.debugAssert false, [], fun b => by simp only [releaseLeg, hleg, List.foldl_nil]⟩
  | some leg =>
      obtain ⟨l', new, h⟩ := poured_foldl (F := fun w q => w.releaseQuote r i now reason q)
        (fun _ => poured_releaseQuote) (doomed l leg keep) l
      refine ⟨l', new, fun b => ?_⟩
      simp only [releaseLeg, hleg]
      exact h b

theorem poured_rejectLegs (now n : Nat) : Poured fun w => Engine.rejectLegs w r n now :=
  poured_foldl (fun _ => poured_releaseLeg) (List.range n)

theorem poured_acceptLeg (winner : Selection) : Poured fun w => Engine.acceptLeg w r i winner now := by
  have hconsume : Poured fun w => (Engine.consumeWinner w.1 r winner, w.2) :=
    fun l => ⟨Engine.consumeWinner l r winner, [], fun _ => rfl⟩
  exact hconsume.comp poured_releaseLeg

theorem poured_acceptLegs (now : Nat) (plan : List Selection) (i : Nat) :
    Poured fun w => Engine.acceptLegs r now i plan w := by
  induction plan generalizing i with
  | nil => exact poured_id
  | cons winner plan ih => exact (ih (i + 1)).comp (poured_acceptLeg winner)

/-- A publication pushes one event at most. -/
theorem pours_publishSelection (now : Nat) (l : Ledger) : ∃ l' new, new.length ≤ 1 ∧
    Pours (fun b => publishSelection (l, b) r i now) l' new := by
  cases hleg : l.legOf r i with
  | none =>
      exact ⟨l, [], by simp, fun b => by simp only [publishSelection, hleg, List.foldl_nil]⟩
  | some leg =>
      cases hbest : l.bestOnLeg leg now with
      | error reason =>
          refine ⟨l, [], by simp, fun b => ?_⟩
          simp only [publishSelection, hleg, hbest, List.foldl_nil]
      | ok best =>
          by_cases hsame : leg.published = some best.price
          · refine ⟨l, [], by simp, fun b => ?_⟩
            simp only [publishSelection, hleg, hbest, hsame, if_true, List.foldl_nil]
          · refine ⟨l.modifyLeg r i fun leg => { leg with published := some best.price },
              [.bestSelectionChanged r i best.price], by simp, fun b => ?_⟩
            simp only [publishSelection, hleg, hbest, hsame, if_false, List.foldl_cons,
              List.foldl_nil]

/-- So does a withdrawal. -/
theorem pours_withdrawStanding (l : Ledger) (maker : Nat) (standing : Option QuoteIdx) :
    ∃ l' new, new.length ≤ 1 ∧
      Pours (fun b => Engine.withdrawStanding (l, b) maker r i standing) l' new := by
  cases standing with
  | none => exact ⟨l, [], by simp, fun _ => rfl⟩
  | some q =>
      exact ⟨l.retireQuote r i q ((l.quote q).bind Quote.claim), [.quoteRejected q maker .replaced],
        by simp, fun _ => rfl⟩

end Work

-- ============================================================================
-- Handlers
-- ============================================================================

namespace Engine

variable {e : Engine} {n now maker i price size expiresAt requester deadline : Nat}
  {r : ReqIdx} {err : EngineError} {nonce : Nonce} {status : TxStatus} {config : Config}

/-- The number a command hands to `headroom`, if it asks. -/
def declared (e : Engine) : Command → Nat
  | .creditAccount .. | .registerContract .. | .cancelQuote .. => 0
  | .submitRequest .. | .settleEscrow .. => 1
  | .submitQuote .. => 2
  | .rejectRequest r =>
    ((e.ledger.request r).map fun y => y.nLegs * e.config.maxQuotesPerLeg).getD 0
  | .acceptRequest r _ =>
    ((e.ledger.request r).map fun y => y.nLegs * e.config.maxQuotesPerLeg + 1).getD 0
  | .pollSettlement nonce .reverted =>
    (((resolveNonce e.ledger nonce).bind e.ledger.request).map fun y => y.nLegs + 1).getD 0
  | .pollSettlement _ _ => 1
  | .reportOracleStatus contract status => (resolution contract status).length

/-- How checks use the buffer: not at all, or by one headroom check before the last word. -/
inductive Gated {α : Type} (n : Nat) (G : EventBuffer → Except EngineError α) : Prop where
  | shut {err : EngineError} (h : ∀ b, G b = .error err)
  | gate {last : Except EngineError α}
      (h : ∀ b, G b = if !b.headroom n then .error .eventBufferFull else last)

/-- How a handler uses the buffer it is handed, whatever buffer that is: not at all, or it
    asks headroom for `n` events and pushes no more than that. -/
inductive Metered (e : Engine) (n : Nat) (F : EventBuffer → Answer) : Prop where
  | blind (answered : Except EngineError Unit) (e' : Engine) (h : ∀ b, F b = (answered, e', b))
  | checked (answered : Except EngineError Unit) (e' : Engine) (new : List Event)
      (hfits : new.length ≤ n)
      (h : ∀ b, F b = if !b.headroom n then e.refuse b .eventBufferFull
        else (answered, e', new.foldl push b))

theorem Gated.ite {α : Type} {c : Prop} [Decidable c] {G G' : EventBuffer → Except EngineError α}
    (h : c → Gated n G) (h' : ¬ c → Gated n G') :
    Gated n fun b => if c then G b else G' b := by
  by_cases hc : c
  · simpa only [hc, if_true] using h hc
  · simpa only [hc, if_false] using h' hc

theorem Metered.ite {c : Prop} [Decidable c] {F F' : EventBuffer → Answer}
    (h : c → Metered e n F) (h' : ¬ c → Metered e n F') :
    Metered e n fun b => if c then F b else F' b := by
  by_cases hc : c
  · simpa only [hc, if_true] using h hc
  · simpa only [hc, if_false] using h' hc

theorem metered_refuse : Metered e n fun b => e.refuse b err := .blind _ _ fun _ => rfl

/-- Behind a headroom check, what is pushed has to fit. -/
theorem metered_checked {F : EventBuffer → Answer} {answered : Except EngineError Unit} {e' : Engine}
    (new : List Event) (hfits : new.length ≤ n)
    (h : ∀ b, F b = (answered, e', new.foldl push b)) :
    Metered e n fun b =>
      if !b.headroom n then e.refuse b .eventBufferFull else F b :=
  .checked answered e' new hfits fun b => by rw [h b]

/-- Behind a headroom check, so does what is committed. -/
theorem metered_done {F : EventBuffer → Answer} (l' : Ledger) (new : List Event)
    (hfits : new.length ≤ n) (h : ∀ b, F b = e.done (l', new.foldl push b)) :
    Metered e n fun b => if !b.headroom n then e.refuse b .eventBufferFull else F b :=
  .checked (.ok ()) { e with ledger := l' } new hfits fun b => by rw [h b]; rfl

theorem gated_checkQuote : Gated 2 (e.checkQuote maker r i price size expiresAt now) := by
  unfold checkQuote
  cases e.ledger.request r with
  | none => exact .shut fun _ => rfl
  | some y =>
      refine .ite (fun _ => .shut fun _ => rfl) fun _ => .ite (fun _ => .shut fun _ => rfl) fun _ => ?_
      cases y.leg i with
      | none => exact .shut fun _ => rfl
      | some leg =>
          refine .ite (fun _ => .shut fun _ => rfl) fun _ => .ite (fun _ => .shut fun _ => rfl) fun _ =>
            .ite (fun _ => .shut fun _ => rfl) fun _ => .ite (fun _ => .shut fun _ => rfl) fun _ => ?_
          cases e.checkReplacement leg (e.ledger.standingQuoteOf leg maker) price with
          | error err => exact .shut fun _ => rfl
          | ok u =>
              cases Size.makerContribution leg.size price with
              | none => exact .shut fun _ => rfl
              | some contribution => exact .gate fun _ => rfl

theorem metered_submitRequest {specs : List LegSpec} :
    Metered e 1 fun b => e.submitRequest requester deadline specs now b := by
  unfold submitRequest
  refine .ite (fun _ => metered_refuse) fun _ => .ite (fun _ => metered_refuse) fun _ =>
    .ite (fun _ => metered_refuse) fun _ => .ite (fun _ => metered_refuse) fun _ => ?_
  cases e.checkLegs now specs 0 with
  | error err => exact metered_refuse
  | ok reservation =>
      dsimp only
      generalize e.ledger.openRequestReserving _ reservation = opened
      obtain ⟨result, l'⟩ := opened
      cases result with
      | error err => exact metered_checked [] (by simp) fun _ => rfl
      | ok v =>
          obtain ⟨request, claim⟩ := v
          exact metered_done l' [.requestOpened request deadline
            (specs.map fun s => ⟨s.contract, s.side, s.size⟩)] (by simp) fun _ => rfl

/-- A handler behind gated checks is metered, if what follows them pours little enough. -/
theorem Gated.metered {α : Type} {G : EventBuffer → Except EngineError α} {F : EventBuffer → Answer}
    (h : Gated n G) (herror : ∀ b err, G b = .error err → F b = e.refuse b err)
    (hpours : ∀ v, (∀ b, b.headroom n = true → G b = .ok v) →
      ∃ answered e', ∃ new : List Event, new.length ≤ n ∧
        ∀ b, G b = .ok v → F b = (answered, e', new.foldl push b)) :
    Metered e n F := by
  cases h with
  | @shut err h => exact .blind _ _ fun b => herror b err (h b)
  | @gate last h =>
      have hfull : ∀ b, b.headroom n = false → F b = e.refuse b .eventBufferFull :=
        fun b hroom => herror b _ (by simp [h b, hroom])
      have hlast : ∀ b, b.headroom n = true → G b = last := fun b hroom => by
        simp [h b, hroom]
      obtain ⟨answered, e', new, hfits, hnew⟩ : ∃ answered e', ∃ new : List Event,
          new.length ≤ n ∧ ∀ b, G b = last → F b = (answered, e', new.foldl push b) := by
        cases last with
        | error err => exact ⟨.error err, e, [], Nat.zero_le _, fun b hb => herror b err hb⟩
        | ok v => exact hpours v hlast
      refine .checked answered e' new hfits fun b => ?_
      cases hroom : b.headroom n with
      | false => exact hfull b hroom
      | true => exact hnew b (hlast b hroom)

theorem metered_submitQuote :
    Metered e 2 fun b => e.submitQuote maker r i price size expiresAt now b := by
  have hgated : Gated 2 (e.checkQuote maker r i price size expiresAt now) := gated_checkQuote
  refine hgated.metered (fun b err h => ?_) fun v _ => ?_
  · unfold submitQuote
    rw [h]
  obtain ⟨standing, contribution⟩ := v
  obtain ⟨l₁, new₁, hlen₁, hpours₁⟩ := Work.pours_withdrawStanding (r := r) (i := i) e.ledger maker
    standing
  cases hopen : l₁.openQuoteReserving
      (Quote.new maker r i price size expiresAt e.nextArrival) contribution with
  | mk result l₂ =>
  cases result with
  | error err =>
      refine ⟨.error (.ledger err),
        { e with nextArrival := min (e.nextArrival + 1) u64Max, ledger := l₂ }, new₁, by omega,
        fun b h => ?_⟩
      unfold submitQuote
      rw [h]
      simp only [hpours₁ b, hopen]
      rfl
  | ok v =>
      obtain ⟨q, c⟩ := v
      obtain ⟨l₃, new₂, hlen₂, hpours₂⟩ := Work.pours_publishSelection (r := r) (i := i) now
        (l₂.linkQuote r i q)
      refine ⟨.ok (), { e with nextArrival := min (e.nextArrival + 1) u64Max, ledger := l₃ },
        new₁ ++ new₂, by rw [List.length_append]; omega, fun b h => ?_⟩
      unfold submitQuote
      rw [h]
      have hpublish : Work.publishSelection (l₂.linkQuote r i q, new₁.foldl push b) r i now =
          (l₃, new₂.foldl push (new₁.foldl push b)) := hpours₂ _
      simp only [hpours₁ b, hopen]
      rw [hpublish, List.foldl_append]
      rfl

theorem metered_rejectRequest (h : e.Sane) :
    Metered e (e.declared (.rejectRequest r)) fun b => e.rejectRequest r now b := by
  unfold rejectRequest
  cases hy : e.ledger.request r with
  | none => exact metered_refuse
  | some y =>
      have hdeclared : e.declared (.rejectRequest r) = y.nLegs * e.config.maxQuotesPerLeg := by
        simp [declared, hy]
      rw [hdeclared]
      refine .ite (fun _ => metered_refuse) fun hopened => ?_
      have hopened : y.state = .opened := by simpa using hopened
      obtain ⟨l', new, hpours⟩ := Work.poured_rejectLegs (r := r) now y.nLegs e.ledger
      refine metered_done ((l'.releaseIfHeld y.claim).modifyRequest r fun r => r.setState .rejected)
        new ?_ fun b => ?_
      · -- with room to spare, what is pushed is what the makers are told
        show new.length ≤ y.nLegs * e.config.maxQuotesPerLeg
        have hpushed := hpours.events_eq (y.nLegs * e.config.maxQuotesPerLeg)
        generalize hb : withCapacity (new.length + y.nLegs * e.config.maxQuotesPerLeg) = b at hpushed
        obtain ⟨gone, hparts, hlen, -⟩ := Ledger.Healthy.rejectLegs_parts (w := (e.ledger, b)) now
          h.healthy h.config.quotesPerLeg (Ledger.market_auctions hy) hopened
          (show y.nLegs ≤ y.auction.legs.length by simp [Request.nLegs, Request.auction])
        have hempty : b.events = [] := hb ▸ rfl
        have htold := hparts.tells.events (by
          rw [hempty, List.length_map, ← hb, List.length_nil]
          show 0 + gone.length ≤ new.length + y.nLegs * e.config.maxQuotesPerLeg
          omega)
        rw [hpushed, hempty, List.nil_append] at htold
        rw [htold, List.length_map]
        exact hlen
      · have hb : rejectLegs (e.ledger, b) r y.nLegs now = (l', new.foldl push b) := hpours b
        simp only [hb]

theorem gated_checkAccept {expected : List ExpectedFill} :
    Gated (e.declared (.acceptRequest r expected)) (e.checkAccept r expected now) := by
  unfold checkAccept
  cases hy : e.ledger.request r with
  | none => exact .shut fun _ => rfl
  | some y =>
      have hdeclared : e.declared (.acceptRequest r expected) =
          y.nLegs * e.config.maxQuotesPerLeg + 1 := by
        simp [declared, hy]
      rw [hdeclared]
      refine .ite (fun _ => .shut fun _ => rfl) fun _ => .ite (fun _ => .shut fun _ => rfl) fun _ =>
        .ite (fun _ => .shut fun _ => rfl) fun _ => ?_
      cases e.planAccept now 0 y.legs expected [] 0 with
      | error err => exact .shut fun _ => rfl
      | ok planned =>
          obtain ⟨plan, total⟩ := planned
          dsimp only
          cases y.claim with
          | none => exact .shut fun _ => rfl
          | some claim =>
              dsimp only
              cases e.ledger.reservation claim with
              | none => exact .shut fun _ => rfl
              | some reservation =>
                  exact .ite (fun _ => .shut fun _ => rfl) fun _ => .gate fun _ => rfl

theorem metered_acceptRequest {expected : List ExpectedFill} (h : e.Sane) :
    Metered e (e.declared (.acceptRequest r expected)) fun b => e.acceptRequest r expected now b := by
  have hgated : Gated (e.declared (.acceptRequest r expected)) (e.checkAccept r expected now) :=
    gated_checkAccept
  refine hgated.metered (fun b err hb => ?_) fun acc hok => ?_
  · unfold acceptRequest
    rw [hb]
  obtain ⟨l', new, hpours⟩ := Work.poured_acceptLegs (r := r) now acc.plan 0 e.ledger
  have hlegs : ∀ b, acceptLegs r now 0 acc.plan (e.ledger, b) = (l', new.foldl push b) := hpours
  generalize hall : new ++ [Event.submitIntent r (Nonce.of r) acc.record.requester acc.intent] = all
  obtain ⟨l'', hcommit⟩ : ∃ l'', Pours (fun b => e.commitAccept r acc now b) l'' all := by
    refine ⟨(e.commitAccept r acc now (.withCapacity 0)).1, fun b => ?_⟩
    simp only [commitAccept, hlegs, ← hall, List.foldl_append, List.foldl_cons, List.foldl_nil]
  refine ⟨.ok (), { e with ledger := l'' }, all, ?_, fun b hb => ?_⟩
  · -- with room to spare, what is pushed is the notices and the intent
    have hpushed := hcommit.events_eq (e.declared (.acceptRequest r expected))
    generalize hb : withCapacity (all.length + e.declared (.acceptRequest r expected)) = b at hpushed
    have hcheck := hok b (by rw [← hb]; simp [withCapacity, EventBuffer.headroom])
    obtain ⟨fills, hc⟩ := h.healthy.checkAccept hcheck
    obtain ⟨res, hres, htotal⟩ := hc.covered
    obtain ⟨b', hnoted, hevents⟩ := (h.healthy.commitAccept h.config.quotesPerLeg hc.record
      hc.opened hc.claim hres htotal hc.plan (fun j f hj => (hc.wins j f hj).fits) hc.room).events
    obtain ⟨notices, hnotices, hlen, -⟩ := hnoted.events
    have hfills : fills.length = acc.record.nLegs := by
      have := congrArg List.length hc.legs
      simpa [Request.nLegs, Request.auction] using this
    have hempty : b.events = [] := hb ▸ rfl
    have hdeclared : e.declared (.acceptRequest r expected) =
        acc.record.nLegs * e.config.maxQuotesPerLeg + 1 := by
      simp [declared, hc.record]
    rw [hevents, hnotices, hempty, List.nil_append] at hpushed
    rw [hdeclared, ← hpushed, List.length_append, List.length_singleton, ← hfills]
    omega
  · unfold acceptRequest
    rw [hb]
    exact congrArg e.done (hcommit b)

theorem metered_pollSettlement (h : e.Sane) (hp : e.market.Sited) :
    Metered e (e.declared (.pollSettlement nonce status)) fun b =>
      e.pollSettlement nonce status now b := by
  unfold pollSettlement
  cases hresolve : resolveNonce e.ledger nonce with
  | none => exact metered_refuse
  | some r =>
      dsimp only
      cases hy : e.ledger.request r with
      | none => exact metered_refuse
      | some y =>
          dsimp only
          cases hstate : y.state with
          | settling nonce' deadline =>
              refine .ite (fun _ => metered_refuse) fun _ => ?_
              have hstalled : ∀ status, Metered e 1 fun b =>
                  if now < deadline then (.ok (), e, b)
                  else if !b.headroom 1 then e.refuse b .eventBufferFull
                  else (.ok (), e, b.push (.settlementStalled r nonce' status)) := fun status =>
                .ite (fun _ => .blind _ _ fun _ => rfl) fun _ =>
                  metered_done e.ledger [.settlementStalled r nonce' status] (by simp) fun _ => rfl
              cases status with
              | unknown => exact hstalled _
              | pending => exact hstalled _
              | settled =>
                  generalize hdischarge : Ledger.CommitPhase.dischargeCommitted e.ledger r = gone
                  obtain ⟨visited, l⟩ := gone
                  refine metered_done (e.settleRequest r nonce' (.withCapacity 0)).1
                    [.requestEscrowed r nonce'] (Nat.le_refl 1) fun b => ?_
                  simp only [settleRequest, hdischarge]
                  rfl
              | reverted =>
                  generalize hdischarge : Ledger.CommitPhase.dischargeCommitted e.ledger r = gone
                  obtain ⟨visited, l⟩ := gone
                  have hdeclared : e.declared (.pollSettlement nonce .reverted) = y.nLegs + 1 := by
                    simp [declared, hresolve, hy]
                  rw [hdeclared]
                  refine metered_done (e.failRequest r nonce' (.withCapacity 0)).1
                    (((notices l visited).map fun x => .quoteRejected x.1 x.2 .settlementFailed) ++
                      [.requestSettlementFailed r nonce'])
                    ?_ fun b => ?_
                  · have hlen := h.healthy.length_notices hp (Ledger.market_auctions hy)
                      ⟨nonce', deadline, hstate⟩ hdischarge
                    simpa [Request.auction, Request.nLegs] using hlen
                  · simp only [failRequest, hdischarge, List.foldl_append, List.foldl_map]
                    rfl
          | _ => exact metered_refuse

theorem metered_reportOracleStatus {contract : Nat} {status : OracleStatus} :
    Metered e (e.declared (.reportOracleStatus contract status)) fun b =>
      e.reportOracleStatus contract status b := by
  unfold reportOracleStatus
  cases e.ledger.contract contract with
  | none => exact metered_refuse
  | some record =>
      exact .ite (fun _ => metered_refuse) fun _ =>
        metered_done (e.ledger.setOracleStatus contract status) (resolution contract status)
          (Nat.le_refl _) fun _ => rfl

theorem metered_settleEscrow {escrow contract : Nat} :
    Metered e 1 fun b => e.settleEscrow escrow contract now b := by
  unfold settleEscrow
  cases e.ledger.contract contract with
  | none => exact metered_refuse
  | some record =>
      cases hout : record.outcome now e.config.stallGrace with
      | none =>
          simp only [hout]
          exact metered_refuse
      | some outcome =>
          simp only [hout]
          exact metered_done e.ledger [.settleIntent escrow contract outcome] (by simp) fun _ => rfl

/-- Every command, on a sane engine whose stored quotes have their sites. -/
theorem Sane.metered (command : Command) (now : Nat) (h : e.Sane) (hp : e.market.Sited) :
    Metered e (e.declared command) fun b => e.perform command now b := by
  cases command with
  | creditAccount account free =>
      refine .blind (e.perform (.creditAccount account free) now (.withCapacity 0)).1
        (e.perform (.creditAccount account free) now (.withCapacity 0)).2.1 fun b => ?_
      simp only [Engine.perform]
      generalize e.ledger.applyMirrorUpdate account free = updated
      obtain ⟨result, l'⟩ := updated
      cases result <;> rfl
  | registerContract contract eventDate =>
      refine .blind (e.perform (.registerContract contract eventDate) now (.withCapacity 0)).1
        (e.perform (.registerContract contract eventDate) now (.withCapacity 0)).2.1 fun b => ?_
      simp only [Engine.perform]
      generalize e.ledger.registerContract contract eventDate = registered
      obtain ⟨result, l'⟩ := registered
      cases result <;> rfl
  | submitRequest requester deadline specs => exact metered_submitRequest
  | rejectRequest r => exact metered_rejectRequest h
  | submitQuote maker r i price size expiresAt => exact metered_submitQuote
  | cancelQuote q => exact .ite (fun _ => metered_refuse) fun _ => metered_refuse
  | acceptRequest r expected => exact metered_acceptRequest h
  | pollSettlement nonce status => exact metered_pollSettlement h hp
  | reportOracleStatus contract status => exact metered_reportOracleStatus
  | settleEscrow escrow contract => exact metered_settleEscrow

-- ============================================================================
-- Nothing is dropped
-- ============================================================================

/-- Pushed onto `b` one after another, each event of `new` finds the buffer below its
    capacity. -/
def FindsRoom (b : EventBuffer) (new : List Event) : Prop :=
  ∀ pushed event rest, new = pushed ++ event :: rest →
    (pushed.foldl push b).events.length < (pushed.foldl push b).capacity

theorem findsRoom {b : EventBuffer} {new : List Event}
    (h : b.events.length + new.length ≤ b.capacity) : FindsRoom b new := by
  rintro pushed event rest rfl
  rw [List.length_append, List.length_cons] at h
  rw [EventBuffer.foldl_push_of_room (by omega)]
  show (b.events ++ pushed).length < b.capacity
  rw [List.length_append]
  omega

/-- What a command pushes is one list of events, whatever the buffer, and no longer than
    what the command hands to `headroom`.  It either finds room for each of them or, where
    the buffer has no room for the number handed to `headroom`, refuses and pushes nothing. -/
theorem pushes_find_room (h : Reachable config e) (command : Command) (now : Nat) :
    ∃ answered e', ∃ new : List Event,
      new.length ≤ (e.normaliseAll (e.touchedAccounts command) now).declared command ∧
      ∀ b : EventBuffer,
        (e.apply command now b = (answered, e', new.foldl push b) ∧ FindsRoom b new ∧
          (e.apply command now b).2.2.events = b.events ++ new) ∨
        (b.headroom ((e.normaliseAll (e.touchedAccounts command) now).declared command) = false ∧
          e.apply command now b =
            (e.normaliseAll (e.touchedAccounts command) now).refuse b .eventBufferFull) := by
  have hn := (sane_of_reachable h).normalised command now
  generalize hnorm : e.normaliseAll (e.touchedAccounts command) now = n at hn ⊢
  have happly : ∀ b, e.apply command now b = n.perform command now b := fun b => by
    rw [apply, hnorm]
  cases hn.sane.metered command now (hn.sited h.sited) with
  | blind answered e' hblind =>
      refine ⟨answered, e', [], Nat.zero_le _, fun b => .inl ?_⟩
      have heq : e.apply command now b = (answered, e', b) := (happly b).trans (hblind b)
      refine ⟨heq, fun pushed event rest hsplit => ?_, by simp [heq]⟩
      cases List.append_eq_nil_iff.mp hsplit.symm |>.2
  | checked answered e' new hfits hchecked =>
      refine ⟨answered, e', new, hfits, fun b => ?_⟩
      have hperform := (happly b).trans (hchecked b)
      cases hroom : b.headroom (n.declared command) with
      | false =>
          rw [hroom] at hperform
          exact .inr ⟨rfl, hperform⟩
      | true =>
          rw [hroom] at hperform
          have hle : b.events.length + n.declared command ≤ b.capacity := by
            simpa [EventBuffer.headroom] using hroom
          have hfits : b.events.length + new.length ≤ b.capacity := by omega
          have heq : e.apply command now b = (answered, e', new.foldl push b) := hperform
          refine .inl ⟨heq, findsRoom hfits, ?_⟩
          rw [heq, EventBuffer.foldl_push_of_room hfits]

/-- Accepting the one standing quote of a small venue, on buffers of any capacity. -/
theorem pushes_find_room_standing : ∃ answered e', ∃ new : List Event, new.length ≤ 3 ∧
    ∀ capacity : Nat,
      (standing.apply (.acceptRequest ⟨0, 0⟩ [⟨0, 600000⟩]) 3 (.withCapacity capacity) =
        (answered, e', new.foldl push (.withCapacity capacity)) ∧
        FindsRoom (.withCapacity capacity) new) ∨ capacity < 3 := by
  obtain ⟨answered, e', new, hlen, hall⟩ :=
    pushes_find_room reachable_standing (.acceptRequest ⟨0, 0⟩ [⟨0, 600000⟩]) 3
  have hdeclared : (standing.normaliseAll (standing.touchedAccounts
      (.acceptRequest ⟨0, 0⟩ [⟨0, 600000⟩])) 3).declared
        (.acceptRequest ⟨0, 0⟩ [⟨0, 600000⟩]) = 3 := by decide +kernel
  rw [hdeclared] at hlen
  refine ⟨answered, e', new, hlen, fun capacity => ?_⟩
  rcases hall (.withCapacity capacity) with ⟨heq, hroom, -⟩ | ⟨hfull, -⟩
  · exact .inl ⟨heq, hroom⟩
  · rw [hdeclared] at hfull
    exact .inr (by simpa [withCapacity, EventBuffer.headroom] using hfull)

end Engine

end RfqSettlement
