/-
  RfqSettlement.Runtime.Headroom

  The room a command asks of the harness's event buffer.  The buffer holds 64 events
  whatever the configuration, while a reject asks for one event for each quote its legs
  may hold and an accept for one more.  Those two are refused for want of room where
  that is more than the buffer holds (`Crowded`); no other command ever is.
-/

import RfqSettlement.Runtime.Agreement
import RfqSettlement.Core.BestExecution

namespace RfqSettlement

namespace Engine

variable {e : Engine} {now capacity : Nat} {command : Command} {events : EventBuffer} {r : ReqIdx}

/-- A reject of an open request, or an accept that every other check passes, on a
    buffer that holds fewer events than the command asks for. -/
def Crowded (e : Engine) (now capacity : Nat) : Command → Prop
  | .rejectRequest r => ∃ y, e.ledger.request r = some y ∧ y.state = .opened ∧
      capacity < y.nLegs * e.config.maxQuotesPerLeg
  | .acceptRequest r expected => ∃ y, e.ledger.request r = some y ∧ y.state = .opened ∧
      now < y.deadline ∧ expected.length = y.nLegs ∧ y.claim.isSome ∧
      (∀ i leg, y.leg i = some leg → ∃ view sel, expected[i]? = some view ∧ view.leg = i ∧
        LegFills e.ledger now leg view sel) ∧
      capacity < y.nLegs * e.config.maxQuotesPerLeg + 1
  | _ => False

theorem headroom_withCapacity {n : Nat} :
    (EventBuffer.withCapacity capacity).headroom n = true ↔ n ≤ capacity := by
  simp [EventBuffer.headroom, EventBuffer.withCapacity]

theorem headroom_of_le {n : Nat} (h : n ≤ capacity) :
    (EventBuffer.withCapacity capacity).headroom n = true := headroom_withCapacity.mpr h

-- ============================================================================
-- Every command but reject and accept
-- ============================================================================

theorem checkLegs_roomy {specs : List LegSpec} {total : Nat} :
    e.checkLegs now specs total ≠ .error .eventBufferFull := by
  induction specs generalizing total with
  | nil => simp [checkLegs]
  | cons spec specs ih =>
      unfold Engine.checkLegs
      repeat' split
      all_goals first | exact ih | simp

theorem submitRequest_roomy {requester deadline : Nat} {specs : List LegSpec} (hroom : 1 ≤ capacity) :
    (e.submitRequest requester deadline specs now (.withCapacity capacity)).1 ≠
      .error .eventBufferFull := by
  unfold Engine.submitRequest
  iterate 4
    split
    · simp [refuse]
  split
  next err hcheck =>
    intro heq
    obtain rfl : err = .eventBufferFull := by simpa [refuse] using heq
    exact checkLegs_roomy hcheck
  split
  next hfull => simp [headroom_of_le hroom] at hfull
  dsimp only
  split
  · simp [refuse]
  · simp [done]

theorem checkReplacement_roomy {leg : Leg} {standing : Option QuoteIdx} {price : Nat} :
    e.checkReplacement leg standing price ≠ .error .eventBufferFull := by
  unfold Engine.checkReplacement
  repeat' split
  all_goals simp

theorem checkQuote_roomy {maker i price size expiresAt : Nat} (hroom : 2 ≤ capacity) :
    e.checkQuote maker r i price size expiresAt now (.withCapacity capacity) ≠
      .error .eventBufferFull := by
  unfold Engine.checkQuote
  split
  · simp
  iterate 2
    split
    · simp
  split
  · simp
  iterate 4
    split
    · simp
  split
  next err hcheck =>
    intro heq
    obtain rfl : err = .eventBufferFull := by simpa using heq
    exact checkReplacement_roomy hcheck
  split
  · simp
  simp [headroom_of_le hroom]

theorem submitQuote_roomy {maker i price size expiresAt : Nat} (hroom : 2 ≤ capacity) :
    (e.submitQuote maker r i price size expiresAt now (.withCapacity capacity)).1 ≠
      .error .eventBufferFull := by
  unfold Engine.submitQuote
  split
  next err hcheck =>
    intro heq
    obtain rfl : err = .eventBufferFull := by simpa [refuse] using heq
    exact checkQuote_roomy hroom hcheck
  dsimp only
  split
  · simp [refuse]
  · simp [done]

theorem Sane.nLegs_le {y : Request} (h : e.Sane) (hr : e.ledger.request r = some y) :
    y.nLegs ≤ MAX_LEGS := by
  have hcount := (h.healthy.coherent.fair r _ (Ledger.market_auctions hr)).count
  simpa [Request.auction, Request.nLegs] using hcount

theorem Sane.pollSettlement_roomy {nonce : Nonce} {status : TxStatus} (h : e.Sane)
    (hroom : MAX_LEGS + 1 ≤ capacity) :
    (e.pollSettlement nonce status now (.withCapacity capacity)).1 ≠ .error .eventBufferFull := by
  have hone : (EventBuffer.withCapacity capacity).headroom 1 = true := headroom_of_le (by omega)
  unfold Engine.pollSettlement
  split
  · simp [refuse]
  split
  · simp [refuse]
  next record hrecord =>
  have hlegs : (EventBuffer.withCapacity capacity).headroom (record.nLegs + 1) = true :=
    headroom_of_le (by have := h.nLegs_le hrecord; omega)
  split
  · split
    · simp [refuse]
    split
    all_goals simp only [hone, hlegs, Bool.not_true, Bool.false_eq_true, if_false]
    · split <;> simp
    · split <;> simp
    · simp [done]
    · simp [done]
  · simp [refuse]

theorem reportOracleStatus_roomy {contract : Nat} {status : OracleStatus} (hroom : 1 ≤ capacity) :
    (e.reportOracleStatus contract status (.withCapacity capacity)).1 ≠ .error .eventBufferFull := by
  have hone : (EventBuffer.withCapacity capacity).headroom (resolution contract status).length =
      true := by
    refine headroom_of_le (Nat.le_trans ?_ hroom)
    cases status <;> simp [resolution]
  unfold Engine.reportOracleStatus
  split
  · simp [refuse]
  split
  · simp [refuse]
  simp [hone, done]

theorem settleEscrow_roomy {escrow contract : Nat} (hroom : 1 ≤ capacity) :
    (e.settleEscrow escrow contract now (.withCapacity capacity)).1 ≠ .error .eventBufferFull := by
  unfold Engine.settleEscrow
  split
  · simp [refuse]
  split
  · simp [refuse]
  simp [headroom_of_le hroom]

-- ============================================================================
-- Reject and accept
-- ============================================================================

theorem headroom_eq_false {n : Nat} :
    (EventBuffer.withCapacity capacity).headroom n = false ↔ capacity < n := by
  rw [← Bool.not_eq_true, headroom_withCapacity, Nat.not_le]

theorem rejectRequest_full_iff :
    (e.rejectRequest r now (.withCapacity capacity)).1 = .error .eventBufferFull ↔
      e.Crowded now capacity (.rejectRequest r) := by
  unfold Engine.rejectRequest Crowded
  split
  next hnone =>
    refine iff_of_false (by simp [refuse]) ?_
    rintro ⟨y, hy, -⟩
    simp [hnone] at hy
  next y hr =>
  have hsame : ∀ y', e.ledger.request r = some y' → y' = y := fun y' hy' =>
    Option.some.inj (hy'.symm.trans hr)
  split
  next hclosed =>
    refine iff_of_false (by simp [refuse]) ?_
    rintro ⟨y', hy', hopened, -⟩
    exact hclosed (hsame y' hy' ▸ hopened)
  next hopened =>
  split
  next hfull =>
    rw [Bool.not_eq_true', headroom_eq_false] at hfull
    exact iff_of_true rfl ⟨y, hr, by simpa using hopened, hfull⟩
  next hroom =>
    rw [Bool.not_eq_true', headroom_eq_false] at hroom
    refine iff_of_false (by simp [done]) ?_
    rintro ⟨y', hy', -, hlt⟩
    exact hroom (hsame y' hy' ▸ hlt)

theorem planAccept_roomy {k total : Nat} {legs : List Leg} {expected : List ExpectedFill}
    {plan : List Selection} :
    e.planAccept now k legs expected plan total ≠ .error .eventBufferFull := by
  induction legs generalizing k expected plan total with
  | nil => simp [planAccept]
  | cons leg legs ih =>
      unfold Engine.planAccept
      repeat' split
      all_goals first | exact ih | simp

theorem buildIntent_roomy {l : Ledger} {legs : List Leg} {plan : List Selection} :
    buildIntent l legs plan ≠ .error .eventBufferFull := by
  induction legs generalizing plan with
  | nil => simp [buildIntent]
  | cons leg legs ih =>
      cases plan with
      | nil => simp [buildIntent]
      | cons sel plan =>
          unfold Engine.buildIntent
          split
          · simp
          split
          next err hrest =>
            intro heq
            obtain rfl : err = .eventBufferFull := by simpa using heq
            exact ih hrest
          · simp

/-- Legs all filled are named in order, and none of them fails. -/
theorem passes_of_fills {y : Request} {expected : List ExpectedFill} (hlen : expected.length = y.nLegs)
    (hfills : ∀ i leg, y.leg i = some leg → ∃ view sel, expected[i]? = some view ∧ view.leg = i ∧
      LegFills e.ledger now leg view sel) :
    (∀ (j : Nat) view, expected[j]? = some view → view.leg = j) ∧
      ∀ err, ¬ FailsFirst e.ledger now 0 y.legs expected err := by
  constructor
  · intro j view hview
    have hj : j < y.legs.length := by
      have := (List.getElem?_eq_some_iff.mp hview).1
      rwa [hlen] at this
    obtain ⟨view', -, hview', hleg, -⟩ := hfills j _ (List.getElem?_eq_getElem hj)
    rw [hview, Option.some.injEq] at hview'
    exact hview' ▸ hleg
  · rintro err ⟨j, ⟨leg, view, hleg, hview, hfails⟩, -⟩
    obtain ⟨view', sel, hview', -, hfill⟩ := hfills j leg hleg
    rw [hview, Option.some.injEq] at hview'
    exact (hview' ▸ hfill).passes hfails

theorem Sane.acceptRequest_full_iff {expected : List ExpectedFill} (h : e.Sane) :
    (e.acceptRequest r expected now (.withCapacity capacity)).1 = .error .eventBufferFull ↔
      e.Crowded now capacity (.acceptRequest r expected) := by
  have hanswer : (e.acceptRequest r expected now (.withCapacity capacity)).1 =
      .error .eventBufferFull ↔
        e.checkAccept r expected now (.withCapacity capacity) = .error .eventBufferFull := by
    unfold Engine.acceptRequest
    cases e.checkAccept r expected now (.withCapacity capacity) <;> simp [refuse, done]
  rw [hanswer]
  constructor
  · intro hfull
    unfold Engine.checkAccept at hfull
    split at hfull
    · cases hfull
    next y hr =>
    split at hfull
    · cases hfull
    next hopened =>
    split at hfull
    · cases hfull
    next hlive =>
    split at hfull
    · cases hfull
    next hlen =>
    split at hfull
    next err hplan =>
      obtain rfl : err = .eventBufferFull := by simpa using hfull
      exact absurd hplan planAccept_roomy
    next plan total hplan =>
    split at hfull
    · cases hfull
    next c hclaim =>
    split at hfull
    · cases hfull
    split at hfull
    · cases hfull
    split at hfull
    next hroom =>
      rw [Bool.not_eq_true', headroom_eq_false] at hroom
      obtain ⟨sels, -, -, hfills⟩ := planAccept_ok hplan
      refine ⟨y, hr, by simpa using hopened, Nat.not_le.mp hlive, by simpa using hlen,
        by simp [hclaim], fun i leg hleg => ?_, hroom⟩
      obtain ⟨view, sel, hview, hname, -, hfill⟩ := hfills i leg hleg
      exact ⟨view, sel, hview, by omega, hfill⟩
    split at hfull
    next err hbuild =>
      obtain rfl : err = .eventBufferFull := by simpa using hfull
      exact absurd hbuild buildIntent_roomy
    · cases hfull
  · rintro ⟨y, hr, hopened, hlive, hlen, hclaim, hfills, hlt⟩
    obtain ⟨c, hclaim⟩ := Option.isSome_iff_exists.mp hclaim
    obtain ⟨hviews, hnone⟩ := passes_of_fills hlen hfills
    rcases h.checkAccept_cases (.withCapacity capacity) hclaim hr hopened hlive hlen hviews with
      ⟨err, -, hfails⟩ | ⟨-, ⟨-, heq⟩ | ⟨hroom, -⟩⟩
    · exact absurd hfails (hnone err)
    · exact heq
    · rw [headroom_withCapacity] at hroom
      omega

/-- Which commands a buffer refuses for want of room. -/
theorem Sane.full_iff (command : Command) (now : Nat) (h : e.Sane) (hroom : MAX_LEGS + 1 ≤ capacity) :
    (e.perform command now (.withCapacity capacity)).1 = .error .eventBufferFull ↔
      e.Crowded now capacity command := by
  have htwo : 2 ≤ capacity := by
    have : 2 ≤ MAX_LEGS + 1 := by decide
    omega
  cases command with
  | rejectRequest r => exact rejectRequest_full_iff
  | acceptRequest r expected => exact h.acceptRequest_full_iff
  | submitRequest requester deadline specs =>
      exact iff_of_false (submitRequest_roomy (by omega)) id
  | submitQuote maker r leg price size expiresAt => exact iff_of_false (submitQuote_roomy htwo) id
  | pollSettlement nonce status => exact iff_of_false (h.pollSettlement_roomy hroom) id
  | reportOracleStatus contract status =>
      exact iff_of_false (reportOracleStatus_roomy (by omega)) id
  | settleEscrow escrow contract => exact iff_of_false (settleEscrow_roomy (by omega)) id
  | _ =>
      refine iff_of_false ?_ id
      rw [Engine.perform]
      split <;> simp [refuse, done]

-- ============================================================================
-- Before expired claims are released
-- ============================================================================

/-- Crediting an account brings no claim, and loses none that has yet to lapse. -/
theorem lapses_of_steps {m m' : Market} {account free : Nat}
    (hsteps : Market.Steps now (.crediting account free) m m') :
    (∀ c k, m'.claims c = some k → m.claims c = some k) ∧
      ∀ c k expiry, m.claims c = some k → k.status = .reserved expiry → now < expiry →
        m'.claims c = some k := by
  induction hsteps with
  | refl => exact ⟨fun _ _ => id, fun _ _ _ hk _ _ => hk⟩
  | tail _ hstep ih =>
      obtain ⟨hold, hkept⟩ := ih
      cases hstep with
      | mirror => exact ⟨hold, hkept⟩
      | @expire c' k' lapsed hk' hs' he =>
          constructor
          · intro c k hk
            apply hold
            simp only [Market.free, Market.dropClaim, Function.update_apply] at hk
            split at hk
            · cases hk
            · exact hk
          · intro c k expiry hk hs hlt
            have hbefore := hkept c k expiry hk hs hlt
            simp only [Market.free, Market.dropClaim, Function.update_apply]
            split
            next heq =>
              rw [heq, hk', Option.some.injEq] at hbefore
              rw [hbefore, hs, ClaimStatus.reserved.injEq] at hs'
              omega
            next => exact hbefore
      | openAuction hscope => cases hscope
      | openOffer hscope => cases hscope
      | withdraw hscope => cases hscope
      | _ hscope => cases hscope

theorem Sane.claim_isSome {y : Request} (h : e.Sane) (hr : e.ledger.request r = some y) :
    y.claim.isSome ↔ e.market.Claimed (.request r) := by
  constructor
  · intro hsome
    obtain ⟨c, hc⟩ := Option.isSome_iff_exists.mp hsome
    have howner : e.ledger.book.ownerClaim (.request r) = some (some c) := by
      rw [Ledger.ownerClaim_book]
      simp [Ledger.ownerClaim, hr, hc]
    obtain ⟨k, hk, hkowner⟩ := h.healthy.intact.balanced.holder _ _ howner
    exact ⟨c, k, hk, hkowner⟩
  · rintro ⟨c, k, hk, howner⟩
    obtain ⟨res, hres, rfl⟩ := Ledger.reservation_of_market hk
    have hheld := h.healthy.intact.balanced.held c _ (Ledger.book_claims hres)
    rw [Ledger.ownerClaim_book, howner] at hheld
    obtain hclaim : y.claim = some c := by simpa [Ledger.ownerClaim, hr] using hheld
    simp [hclaim]

variable {n : Engine} {y y' : Request}

/-- An open request before its deadline keeps its claim. -/
theorem Sane.claim_normalised (h : e.Sane) (hn : Normalised now e n)
    (hr : e.ledger.request r = some y) (hr' : n.ledger.request r = some y')
    (hopened : y.state = .opened) (hlive : now < y.deadline) :
    y'.claim.isSome ↔ y.claim.isSome := by
  obtain ⟨hold, hkept⟩ := lapses_of_steps (hn.steps (.crediting 0 0))
  rw [h.claim_isSome hr, hn.sane.claim_isSome hr']
  constructor
  · rintro ⟨c, k, hk, howner⟩
    exact ⟨c, k, hold c k hk, howner⟩
  · rintro ⟨c, k, hk, howner⟩
    have ha := Ledger.market_auctions hr
    obtain ⟨expiry, hs⟩ := h.healthy.reserved_of_opened ha hopened hk howner
    obtain ⟨a, ha', hback⟩ := h.healthy.coherent.auctioned c k r hk howner
    rw [ha, Option.some.injEq] at ha'
    subst ha'
    obtain ⟨-, rfl, -⟩ := hback.reserved expiry hs
    exact ⟨c, k, hkept c k _ hk hs hlive, howner⟩

/-- Releasing expired claims changes nothing about the room a command asks for. -/
theorem Sane.crowded_normalised (h : e.Sane) (hn : Normalised now e n)
    (hsame : Ledger.SameRecords e.ledger n.ledger) :
    n.Crowded now capacity command ↔ e.Crowded now capacity command := by
  have hrequest : ∀ {r y y'}, e.ledger.request r = some y → n.ledger.request r = some y' →
      y'.state = y.state ∧ y'.deadline = y.deadline ∧ y'.legs = y.legs := by
    intro r y y' hr hr'
    obtain ⟨y₀, hr₀, hbare⟩ := hsame.request hr'
    rw [hr, Option.some.injEq] at hr₀
    subst hr₀
    have hstate : y'.bare.state = y.bare.state := by rw [hbare]
    have hdeadline : y'.bare.deadline = y.bare.deadline := by rw [hbare]
    have hlegs : y'.bare.legs = y.bare.legs := by rw [hbare]
    exact ⟨hstate, hdeadline, hlegs⟩
  have hfills : ∀ leg view sel,
      LegFills n.ledger now leg view sel ↔ LegFills e.ledger now leg view sel := by
    intro leg view sel
    have hbest := hsame.bestOnLeg leg now
    exact ⟨fun ⟨hb, hx⟩ => ⟨hbest ▸ hb, hx⟩, fun ⟨hb, hx⟩ => ⟨hbest.trans hb, hx⟩⟩
  have hstored : ∀ {r y}, e.ledger.request r = some y → ∃ y', n.ledger.request r = some y' := by
    intro r y hr
    obtain ⟨y', hr', -⟩ := hsame.symm.request hr
    exact ⟨y', hr'⟩
  cases command with
  | rejectRequest r =>
      simp only [Crowded, Request.nLegs, hn.config]
      constructor
      · rintro ⟨y', hr', hopened, hlt⟩
        obtain ⟨y, hr, -⟩ := hsame.request hr'
        obtain ⟨hstate, -, hlegs⟩ := hrequest hr hr'
        exact ⟨y, hr, hstate ▸ hopened, hlegs ▸ hlt⟩
      · rintro ⟨y, hr, hopened, hlt⟩
        obtain ⟨y', hr'⟩ := hstored hr
        obtain ⟨hstate, -, hlegs⟩ := hrequest hr hr'
        exact ⟨y', hr', hstate.trans hopened, hlegs ▸ hlt⟩
  | acceptRequest r expected =>
      simp only [Crowded, Request.nLegs, Request.leg, hn.config, hfills]
      constructor
      · rintro ⟨y', hr', hopened, hlive, hlen, hclaim, hlegsfill, hlt⟩
        obtain ⟨y, hr, -⟩ := hsame.request hr'
        obtain ⟨hstate, hdeadline, hlegs⟩ := hrequest hr hr'
        rw [hstate] at hopened
        rw [hdeadline] at hlive
        rw [hlegs] at hlen hlegsfill hlt
        exact ⟨y, hr, hopened, hlive, hlen,
          (h.claim_normalised hn hr hr' hopened hlive).mp hclaim, hlegsfill, hlt⟩
      · rintro ⟨y, hr, hopened, hlive, hlen, hclaim, hlegsfill, hlt⟩
        obtain ⟨y', hr'⟩ := hstored hr
        obtain ⟨hstate, hdeadline, hlegs⟩ := hrequest hr hr'
        have hclaim' := (h.claim_normalised hn hr hr' hopened hlive).mpr hclaim
        rw [← hstate] at hopened
        rw [← hdeadline] at hlive
        rw [← hlegs] at hlen hlegsfill hlt
        exact ⟨y', hr', hopened, hlive, hlen, hclaim', hlegsfill, hlt⟩
  | _ => exact Iff.rfl

/-- Which commands the engine refuses for want of room. -/
theorem Sane.answer_full_iff (h : e.Sane) (input : Input) (hroom : MAX_LEGS + 1 ≤ input.capacity) :
    (e.answer input).1 = .error .eventBufferFull ↔ e.Crowded input.now input.capacity input.command := by
  have hn := h.normalised input.command input.now
  have hfull := hn.sane.full_iff input.command input.now hroom
  exact hfull.trans (h.crowded_normalised hn (h.sameRecords_normaliseAll _))

end Engine

-- ============================================================================
-- The harness's buffer
-- ============================================================================

/-- The only commands the chain's log is translated into. -/
theorem Indexer.isGateway_translate (entry : ChainEvent) :
    (Indexer.translate entry).isGateway = false := by
  unfold Indexer.translate
  split
  all_goals rfl

/-- A venue with five legs to a request and sixteen quotes to a leg. -/
def Config.wide : Config := { Config.small with maxLegs := 5, maxQuotesPerLeg := 16 }

namespace Harness

variable {config : Config} {clocks : Clocks} {ok ok' : Harness → HarnessOp → Prop} {op : HarnessOp}
  {h h' : Harness} {commands commands' : List Command} {command : Command}

/-- An engine of the configuration, and commands of the chain's to hand it. -/
structure Steady (config : Config) (h : Harness) (commands : List Command) : Prop where
  sane : h.engine.Sane
  config_eq : h.engine.config = config
  chain : ∀ command ∈ commands, command.isGateway = false

theorem Steady.move (hsteady : Steady config h commands)
    (hmove : Move clocks ok op h commands h' commands') : Steady config h' commands' := by
  obtain ⟨hsane, hconfig, hchain⟩ := hsteady
  have hstep : ∀ command, (h.engine.step (h.input clocks command)).Sane ∧
      (h.engine.step (h.input clocks command)).config = config := by
    intro command
    obtain ⟨scope, -, hadv⟩ :=
      hsane.apply command (clocks.engine h.reads) (.withCapacity eventCapacity)
    exact ⟨hadv.sane, hadv.config.trans hconfig⟩
  cases hmove with
  | applied => exact ⟨(hstep _).1, (hstep _).2, hchain⟩
  | polled => exact ⟨(hstep _).1, (hstep _).2, hchain⟩
  | delivered =>
      exact ⟨(hstep _).1, (hstep _).2, fun command hmem => hchain command (List.mem_cons_of_mem _ hmem)⟩
  | drained =>
      refine ⟨hsane, hconfig, fun command hmem => ?_⟩
      obtain ⟨entry, -, rfl⟩ := Indexer.mem_of_drain hmem
      exact Indexer.isGateway_translate entry
  | _ => exact ⟨hsane, hconfig, hchain⟩

theorem Steady.moves (hsteady : Steady config h commands)
    (hmoves : Moves clocks ok op h commands h' commands') : Steady config h' commands' :=
  hmoves.induct (fun _ _ _ _ hmove hsteady => hsteady.move hmove) hsteady

theorem steady_new (hnew : Harness.new config = .ok h) : Steady config h [] := by
  obtain ⟨engine, hengine, rfl⟩ := new_eq_ok hnew
  obtain ⟨-, rfl⟩ := Engine.new_eq_ok hengine
  exact ⟨Engine.sane_new hengine, rfl, by simp⟩

theorem Steady.perform (op : HarnessOp) (hsteady : Steady config h []) :
    Steady config (h.perform clocks op) [] :=
  have hmoves : Moves clocks (fun _ _ => True) op h [] (h.perform clocks op) [] := moves_perform trivial
  hsteady.moves hmoves

/-- No command an operation hands the engine, its own or one the indexer delivers, is
    refused for want of room. -/
structure Serves (clocks : Clocks) (h : Harness) (op : HarnessOp) : Prop where
  applied : ∀ command, op = .apply command →
    (h.apply clocks command).1 ≠ .error (.engine .eventBufferFull)
  polled : ∀ request, op = .pollSettlement request →
    (h.pollSettlement clocks request).1 ≠ .error (.engine .eventBufferFull)
  delivered : ∀ h' command commands,
    Moves clocks (fun _ _ => True) op h [] h' (command :: commands) →
      (h'.apply clocks command).1 ≠ .error (.engine .eventBufferFull)

/-- The operation hands the engine nothing that asks for more than the buffer holds. -/
def Roomy (clocks : Clocks) (h : Harness) (op : HarnessOp) : Prop :=
  ∀ command, op = .apply command →
    ¬ h.engine.Crowded (clocks.engine h.reads) eventCapacity command

theorem Steady.apply_full_iff (hsteady : Steady config h commands) :
    (h.apply clocks command).1 = .error (.engine .eventBufferFull) ↔
      h.engine.Crowded (clocks.engine h.reads) eventCapacity command := by
  have hanswer : (h.apply clocks command).1 =
      (h.engine.answer (h.input clocks command)).1.mapError .engine := rfl
  have hfull := hsteady.sane.answer_full_iff (h.input clocks command)
    (show MAX_LEGS + 1 ≤ eventCapacity by decide)
  refine Iff.trans ?_ hfull
  rw [hanswer]
  cases (h.engine.answer (h.input clocks command)).1 <;> simp [Except.mapError]

theorem not_crowded_of_chain {e : Engine} {now capacity : Nat}
    (hchain : command.isGateway = false) : ¬ e.Crowded now capacity command := by
  cases command with
  | rejectRequest => cases hchain
  | acceptRequest => cases hchain
  | _ => exact id

/-- The commands of the chain always find room. -/
theorem Steady.serves_iff (hsteady : Steady config h []) :
    Serves clocks h op ↔ Roomy clocks h op := by
  constructor
  · intro hserves command hop hcrowded
    exact hserves.applied command hop (hsteady.apply_full_iff.mpr hcrowded)
  · intro hroomy
    refine ⟨fun command hop hfull => ?_, fun request hop => ?_, fun h' command commands hmoves => ?_⟩
    · exact hroomy command hop (hsteady.apply_full_iff.mp hfull)
    · unfold pollSettlement
      split
      · simp
      next nonce _ =>
      dsimp only
      split
      · simp
      split
      next err h' heq =>
        intro hfull
        obtain rfl : err = .engine .eventBufferFull := by simpa using hfull
        have happly : (h.apply clocks (.pollSettlement nonce (h.custody.status nonce))).1 =
            .error (.engine .eventBufferFull) := congrArg Prod.fst heq
        exact not_crowded_of_chain rfl (hsteady.apply_full_iff.mp happly)
      · simp
    · have hdue := hsteady.moves hmoves
      rw [Ne, hdue.apply_full_iff]
      exact not_crowded_of_chain (hdue.chain command List.mem_cons_self)

theorem lets_congr {P : Harness → Prop} (hkept : ∀ h op, P h → P (h.perform clocks op))
    (hiff : ∀ h op, P h → (ok h op ↔ ok' h op)) (ops : List HarnessOp) (hP : P h) :
    Lets clocks ok h ops ↔ Lets clocks ok' h ops := by
  induction ops generalizing h with
  | nil => exact Iff.rfl
  | cons op ops ih => rw [Lets, Lets, hiff h op hP, ih (hkept h op hP)]

/-- Along any run from a validated configuration, on any clocks: every command finds room
    exactly when no reject and no accept of the run asks for more than the buffer holds. -/
theorem served_iff_roomy (hnew : Harness.new config = .ok h) (clocks : Clocks)
    (ops : List HarnessOp) :
    Lets clocks (Serves clocks) h ops ↔ Lets clocks (Roomy clocks) h ops := by
  refine lets_congr (P := fun h => Steady config h []) (fun h op hsteady => ?_)
    (fun h op hsteady => hsteady.serves_iff) ops (steady_new hnew)
  exact hsteady.perform op

/-- Where the quotes of a leg are few, no request asks for more than the buffer holds. -/
theorem Steady.roomy (hfew : MAX_LEGS * config.maxQuotesPerLeg + 1 ≤ eventCapacity)
    (hsteady : Steady config h []) (op : HarnessOp) : Roomy clocks h op := by
  have hbound : ∀ r y, h.engine.ledger.request r = some y →
      y.nLegs * h.engine.config.maxQuotesPerLeg ≤ MAX_LEGS * config.maxQuotesPerLeg := by
    intro r y hr
    rw [hsteady.config_eq]
    exact Nat.mul_le_mul_right _ (hsteady.sane.nLegs_le hr)
  rintro command -
  cases command with
  | rejectRequest r =>
      rintro ⟨y, hr, -, hlt⟩
      have := hbound r y hr
      omega
  | acceptRequest r expected =>
      rintro ⟨y, hr, -, -, -, -, -, hlt⟩
      have := hbound r y hr
      omega
  | _ => exact id

/-- A request of one leg, rejected. -/
def rejectOps : List HarnessOp :=
  [.deposit 0 10000000, .advanceBlock, .apply (.registerContract 0 1000),
    .apply (.submitRequest 0 50 [⟨0, .yes, 2, 600000⟩]), .apply (.rejectRequest ⟨0, 0⟩)]

/-- No leg of the small venue has more than two quotes. -/
theorem served_small : Lets (stopped 5) (Serves (stopped 5)) small rejectOps := by
  have hnew : Harness.new Config.small = Except.ok small := rfl
  refine (served_iff_roomy hnew (stopped 5) rejectOps).mpr ?_
  have hall : ∀ (ops : List HarnessOp) (h : Harness), Steady Config.small h [] →
      Lets (stopped 5) (Roomy (stopped 5)) h ops := by
    intro ops
    induction ops with
    | nil => exact fun _ _ => trivial
    | cons op ops ih =>
        exact fun h hsteady => ⟨hsteady.roomy (by decide) op, ih _ (hsteady.perform op)⟩
  exact hall rejectOps small (steady_new rfl)

/-- A request of five legs, and its reject. -/
def wideOps : List HarnessOp :=
  [.deposit 0 10000000, .advanceBlock, .apply (.registerContract 0 1000),
    .apply (.submitRequest 0 50 (List.replicate 5 ⟨0, .yes, 2, 600000⟩))]

/-- No quote is stored, and yet the reject is refused: it may have eighty to notify. -/
theorem unserved_wide : ¬ ∀ (config : Config) (h : Harness) (clocks : Clocks) (ops : List HarnessOp),
    Harness.new config = .ok h → Lets clocks (Serves clocks) h ops := by
  intro hserves
  have hlets := hserves Config.wide _ (stopped 5) (wideOps ++ [.apply (.rejectRequest ⟨0, 0⟩)]) rfl
  have hlast := hlets.2.2.2.2.1.applied _ rfl
  exact hlast (by decide +kernel)

end Harness

end RfqSettlement
