/-
  RfqSettlement.Runtime.Covering

  When the claims of the engine are covered by what custody holds, in a venue without lag.

  Between two operations every answer of custody was heard, so what the engine claims of
  an account is within its balance, unless the account is party to a bundle custody has
  yet to answer and that can no longer settle.
-/

import RfqSettlement.Runtime.Checks
import RfqSettlement.Runtime.Stranding
import RfqSettlement.Runtime.Timelock

namespace RfqSettlement

namespace Harness

variable {config : Config} {clocks : Clocks} {ok : Harness → HarnessOp → Prop} {op : HarnessOp}
  {h h' : Harness} {commands commands' : List Command} {a : Nat} {t : Totals} {b : Bundle}
  {bound : Nat → Nonce → Prop}

-- ============================================================================
-- Answers
-- ============================================================================

/-- No request waits for an answer custody has given. -/
def Heard (h : Harness) : Prop :=
  ∀ nonce status, h.custody.resolved nonce = some status → ¬ h.engine.Awaits nonce

theorem announced_of_orderly (hok : Orderly h op) : Announced h op := by
  cases op with
  | reorg => exact hok.elim
  | custody custodyOp => exact (show Straight h (.custody custodyOp) from hok).elim
  | _ => trivial

theorem Reached.answering (hreached : Reached config clocks ok h) (hok : ∀ h op, ok h op → Orderly h op) :
    Answering h [] :=
  hreached.induct (P := Answering) (fun _ hnew => answering_new hnew)
    fun _ _ _ _ _ hmove ha => ha.move hmove fun h op hallowed => announced_of_orderly (hok h op hallowed)

theorem Quiet.heard (hquiet : Quiet clocks h h') (ha : Answering h []) (hheard : Heard h) : Heard h' := by
  intro nonce status hs hawaits
  rw [hquiet.resolved] at hs
  refine hheard nonce status hs ?_
  rcases hquiet.engine with heq | ⟨command, -, heq⟩
  · rwa [heq] at hawaits
  · rw [heq] at hawaits
    exact ha.sane.awaits_of_step (ha.resolved nonce status hs).2 hawaits

theorem Reached.heard (hreached : Reached config clocks ok h) (hmono : Monotone clocks.engine)
    (hok : ∀ h op, ok h op → Orderly h op) (hshallow : config.confirmations = 0)
    (hlag : config.maxIndexerLag = 0) (hnext : h.custody.log.nextTx < u64Max) : Heard h := by
  induction hreached with
  | new hnew =>
      obtain ⟨engine, -, rfl⟩ := new_eq_ok hnew
      rintro nonce status ⟨⟩
  | @perform h hreached op hallowed ih =>
      rcases hreached.pumped hmono hok hshallow hlag hallowed with hnone | hquiet
      · intro nonce status hs hawaits
        have hmem := ((hreached.perform op hallowed).answering hok).coming hnext nonce status hs hawaits
        rw [coming, hnone] at hmem
        cases hmem
      · exact hquiet.heard (hreached.answering hok) (ih (hquiet.log ▸ hnext))

/-- What custody settled the engine knows of. -/
theorem Heard.owed (hheard : Heard h) (a : Nat) : h.owed [] a = 0 := by
  refine List.sum_eq_zero fun n hn => ?_
  obtain ⟨b, -, rfl⟩ := List.mem_map.mp hn
  rw [if_neg]
  simp only [owes, Bool.and_eq_true, decide_eq_true_eq]
  rintro ⟨⟨hsettled, hawaits⟩, -⟩
  obtain ⟨x, deadline, hx, hstate⟩ := Market.awaits_iff.mp hawaits
  exact hheard b.nonce .settled hsettled ⟨b.basket, x, deadline, hx, hstate⟩

/-- Committed capital is pledged to a bundle custody has yet to answer. -/
theorem Agrees.committed {c : ResIdx} {k : Claim} {r : ReqIdx} (hagrees : Agrees h commands)
    (hsane : h.engine.Sane) (hheard : Heard h) (hk : h.engine.market.claims c = some k)
    (hs : k.status = .committed r) :
    ∃ b ∈ h.intents, h.custody.resolved b.nonce = none ∧ k.account ∈ b.parties := by
  obtain ⟨x, deadline, hx, hsettling⟩ := hsane.settles hk hs
  obtain ⟨b, hb, hnonce⟩ := hagrees.awaited hsane ⟨r, x, deadline, hx, hsettling⟩
  obtain rfl := Bundle.basket_eq hnonce
  have hnone : h.custody.resolved b.nonce = none := by
    cases hresolved : h.custody.resolved b.nonce with
    | none => rfl
    | some status => exact absurd ⟨_, x, deadline, hx, hnonce ▸ hsettling⟩ (hheard b.nonce status hresolved)
  refine ⟨b, hb, hnone, ?_⟩
  obtain ⟨qs, hlen, hclaims⟩ := (hagrees.unresolved hb hnone).2.claims
  have hmem := (hclaims k).mp ⟨c, hk, hs⟩
  rcases List.mem_append.mp hmem with hmaker | hrequester
  · obtain ⟨y, hy, rfl⟩ := List.mem_map.mp hmaker
    exact List.mem_cons_of_mem _ (List.mem_map_of_mem (List.of_mem_zip hy).1)
  · rw [List.mem_singleton.mp hrequester]
    exact List.mem_cons_self

/-- Under a withdrawal delay that outlasts a request and a quote, every accept is outlived. -/
theorem Reached.outlived (hreached : Reached config clocks ok h) (hmono : Monotone clocks.engine)
    (hclocks : clocks.chain = clocks.engine) (hok : ∀ h op, ok h op → Orderly h op)
    (hshallow : config.confirmations = 0) (hlag : config.maxIndexerLag = 0)
    (hnext : h.custody.log.nextTx < u64Max) (houtlasts : config.Outlasting) (op : HarnessOp) :
    Outlived clocks h op := by
  rintro r expected y rfl hr hpasses m b hm hb hpending huncovered
  have hl := hreached.lagless hmono hok
  have hs : Timelocked clocks config.Outlasting (fun _ _ => True) (fun _ => False) h :=
    hreached.timelocked hmono hclocks hok .inl (fun _ _ _ _ _ _ _ _ _ _ _ _ _ _ => trivial) hshallow
      hlag hnext
  have howed := (hreached.heard hmono hok hshallow hlag hnext).owed y.requester
  have ht : h.engine.market.totals y.requester = some m.totals := by
    show (h.engine.ledger.account y.requester).map _ = _
    rw [hm]
    rfl
  have hauction := Ledger.market_auctions hr
  cases hs.sheltered _ _ ht with
  | covered hcovered =>
      have hcovered : m.reserved + m.committed ≤ _ := hcovered
      omega
  | waiting hb' _ _ hripens =>
      obtain rfl := Option.some.inj (hb.symm.trans hb')
      rw [← hl.timed.config_eq] at houtlasts
      have hlate := hripens.late houtlasts r y.auction hauction rfl hpasses.opened
      have hfair : y.auction.Fair := hl.timed.sane.healthy.coherent.fair r y.auction hauction
      have hnonempty : y.legs ≠ [] := fun hnil => hfair.legs (by rw [Request.auction, hnil]; rfl)
      obtain ⟨leg, hleg⟩ := List.exists_mem_of_ne_nil _ hnonempty
      obtain ⟨now, hnow, hreach⟩ := hl.timed
      obtain ⟨sel, x, hbest, hx, hwithin⟩ := hreach.expires_of_passes hr hpasses hleg
      rw [hreach.config_eq] at hlate
      exact ⟨leg, hleg, sel, x, hbest, hx, (Nat.le_of_lt hwithin).trans hlate⟩
  | lapsed hlapsed =>
      have hclosed := hlapsed.auctions r y.auction hauction rfl hpasses.opened
      exact absurd hpasses.live (Nat.not_lt.mpr hclosed)

-- ============================================================================
-- Coverage
-- ============================================================================

/-- `a` is party to a bundle that custody has yet to answer, and that is too late to settle or
    that `a` asked for itself under a withdrawal delay too short for it. -/
def Exposed (clocks : Clocks) (h : Harness) (a : Nat) : Prop :=
  ∃ b ∈ h.intents, h.custody.resolved b.nonce = none ∧ a ∈ b.parties ∧
    ((∃ leg ∈ b.legs, leg.quoteExpiry ≤ clocks.engine h.reads) ∨
      a = b.requester ∧ ¬ h.engine.config.Outlasting)

/-- `a` is party to a bundle under way that is of `bound`, and that is too late to settle or that
    `a` asked for itself under a withdrawal delay too short for it. -/
def Overdrawn (clocks : Clocks) (bound : Nat → Nonce → Prop) (h : Harness) (a : Nat) : Prop :=
  ∃ b, h.UnderWay a b ∧ bound a b.nonce ∧
    ((∃ leg ∈ b.legs, leg.quoteExpiry ≤ clocks.engine h.reads) ∨
      a = b.requester ∧ ¬ h.engine.config.Outlasting)

theorem Overdrawn.exposed (h : Overdrawn clocks bound h' a) : Exposed clocks h' a := by
  obtain ⟨b, hway, -, hcause⟩ := h
  exact ⟨b, hway.ordered, hway.unresolved, hway.party, hcause⟩

/-- What lapsed is released, or binds the account still. -/
theorem Lapsed.overdrawn {c : ResIdx} {k : Claim}
    (hlapsed : Lapsed h.engine.config.Outlasting h a (clocks.engine h.reads))
    (hbound : ∀ b, h.UnderWay a b → bound a b.nonce) (hunreserved : Unreserved h a)
    (hagrees : Agrees h commands) (hsane : h.engine.Sane) (hheard : Heard h)
    (hk : h.engine.market.claims c = some k) (haccount : k.account = a) :
    Overdrawn clocks bound h a := by
  cases hs : k.status with
  | reserved x => exact absurd hs (hunreserved c k x hk haccount)
  | committed r =>
      obtain ⟨b, hb, hnone, hparty⟩ := hagrees.committed hsane hheard hk hs
      rw [haccount] at hparty
      have hway : h.UnderWay a b := ⟨hb, hnone, hparty⟩
      refine ⟨b, hway, hbound b hway, ?_⟩
      rcases List.mem_cons.mp hparty with hrequester | hmaker
      · by_cases houtlasts : h.engine.config.Outlasting
        · exact .inl (hlapsed.baskets houtlasts b hb hnone hrequester.symm)
        · exact .inr ⟨hrequester, houtlasts⟩
      · obtain ⟨leg, hleg, hmaker⟩ := List.mem_map.mp hmaker
        exact .inl ⟨leg, hleg, hlapsed.legs b hb hnone leg hleg hmaker⟩

theorem Timelocked.coverage
    (hs : Timelocked clocks h.engine.config.Outlasting bound (fun _ => False) h)
    (hl : Lagless config clocks h commands) (hheard : Heard h)
    (ht : h.engine.market.totals a = some t) :
    t.claimed ≤ h.custody.balance a ∨ Overdrawn clocks bound h a := by
  have howed := hheard.owed a
  cases hs.sheltered a t ht with
  | covered hcovered =>
      have := h.custody.available_le_balance a
      exact .inl (by omega)
  | waiting _ _ hfunds => exact .inl (by omega)
  | lapsed hlapsed hcleared hbound =>
      have hunreserved : Unreserved h a := hcleared.resolve_left id
      by_cases hsome : ∃ c k, h.engine.market.claims c = some k ∧ k.account = a
      · obtain ⟨c, k, hk, haccount⟩ := hsome
        exact .inr (hlapsed.overdrawn hbound hunreserved hl.agrees hl.timed.sane hheard hk haccount)
      · have hclaimed : t.claimed = h.engine.market.sum (Claim.heldBy a) :=
          hl.timed.sane.healthy.intact.claimed ht
        have hzero : h.engine.market.sum (Claim.heldBy a) = 0 := by
          refine Ledger.book_sum_eq_zero fun c k hk => if_neg fun haccount => ?_
          exact hsome ⟨c, k, hk, haccount⟩
        exact .inl (by omega)

/-- Between two operations of a venue without lag the claims of every account are within its
    balance, or it is overdrawn. -/
theorem Reached.coverage (hreached : Reached config clocks ok h) (hmono : Monotone clocks.engine)
    (hclocks : clocks.chain = clocks.engine) (hok : ∀ h op, ok h op → Orderly h op)
    (hbinds : ∀ h op, ok h op → Binds clocks bound h op) (hshallow : config.confirmations = 0)
    (hlag : config.maxIndexerLag = 0) (hnext : h.custody.log.nextTx < u64Max)
    (ht : h.engine.market.totals a = some t) :
    t.claimed ≤ h.custody.balance a ∨ Overdrawn clocks bound h a := by
  have hl := hreached.lagless hmono hok
  have hs : Timelocked clocks config.Outlasting bound (fun _ => False) h :=
    hreached.timelocked hmono hclocks hok .inl hbinds hshallow hlag hnext
  rw [← hl.timed.config_eq] at hs
  exact hs.coverage hl (hreached.heard hmono hok hshallow hlag hnext) ht

/-- All cross-system invariants hold, or the claims of one account are not covered. -/
theorem Reached.crossSystem_coverage (hreached : Reached config clocks ok h)
    (hmono : Monotone clocks.engine) (hok : ∀ h op, ok h op → Orderly h op)
    (hnext : h.custody.log.nextTx < u64Max) :
    h.checkCrossSystemInvariants = .ok () ∨
      ∃ a t, h.checkCrossSystemInvariants = .error (.claimCoverageBroken a) ∧
        h.engine.market.totals a = some t ∧
          h.custody.balance a + (h.lockedContributions a).sum < t.claimed := by
  have hl := hreached.lagless hmono hok
  obtain ⟨hconservation, hcontributions, hmirror⟩ := settlementChecks hreached hmono hok hnext
  have hchecks : h.checkCrossSystemInvariants = h.checkClaimCoverage := by
    rw [checkCrossSystemInvariants, hconservation, hcontributions, hmirror]
    dsimp only
    split
    next heq => exact heq.symm
    next heq => exact heq.symm
  rw [hchecks]
  cases hcoverage : h.checkClaimCoverage with
  | ok => exact .inl rfl
  | error v =>
      obtain ⟨a, -, hfails⟩ := checkAll_error hcoverage
      obtain ⟨t, ht, hlt⟩ : ∃ t, h.engine.market.totals a = some t ∧
          h.custody.balance a + (h.lockedContributions a).sum < t.claimed := by
        by_contra hnone
        rw [checkCoverage_ok hl.custodial.conserved hl.timed.sane fun t ht =>
          Nat.not_lt.mp fun hlt => hnone ⟨t, ht, hlt⟩] at hfails
        cases hfails
      exact .inr ⟨a, t, by rw [checkCoverage_violation hfails], ht, hlt⟩

/-- After every operation of a venue without lag all cross-system invariants hold, or the
    claims of one account are not covered that is exposed in a bundle that is under way. -/
theorem crossSystem_cases (hreached : Reached config clocks Orderly h) (hmono : Monotone clocks.engine)
    (hclocks : clocks.chain = clocks.engine) (hshallow : config.confirmations = 0)
    (hlag : config.maxIndexerLag = 0) (hnext : h.custody.log.nextTx < u64Max) :
    h.checkCrossSystemInvariants = .ok () ∨
      ∃ a, h.checkCrossSystemInvariants = .error (.claimCoverageBroken a) ∧ Exposed clocks h a := by
  have hok : ∀ h op, Orderly h op → Orderly h op := fun _ _ => id
  refine (hreached.crossSystem_coverage hmono hok hnext).imp_right ?_
  rintro ⟨a, t, herr, ht, hlt⟩
  have hcovered : _ ∨ Overdrawn clocks (fun _ _ => True) h a :=
    hreached.coverage hmono hclocks hok (fun _ _ _ _ _ _ _ _ _ _ _ _ _ _ => trivial) hshallow hlag
      hnext ht
  exact ⟨a, herr, (hcovered.resolve_left (by omega)).exposed⟩

/-- The withdrawal is executed, and the bundle not yet included. -/
theorem crossSystem_withdrawn :
    (brief.run twoSteps (withdrawOps.take 9)).checkCrossSystemInvariants =
        .error (.claimCoverageBroken 0) ∧
      ((brief.run twoSteps (withdrawOps.take 9)).checkCrossSystemInvariants = .ok () ∨
        ∃ a, (brief.run twoSteps (withdrawOps.take 9)).checkCrossSystemInvariants =
            .error (.claimCoverageBroken a) ∧
          Exposed twoSteps (brief.run twoSteps (withdrawOps.take 9)) a) := by
  have hnew : new Config.brief = .ok brief := rfl
  have hreached : Reached Config.brief twoSteps Orderly (brief.run twoSteps (withdrawOps.take 9)) :=
    (Reached.new hnew).run _ (by simp [withdrawOps, Lets, Orderly, Straight, Command.isGateway])
  exact ⟨by decide +kernel, crossSystem_cases hreached monotone_twoSteps rfl rfl rfl (by decide +kernel)⟩

end Harness

/-- A venue without lag whose withdrawal delay outlasts a request and a quote. -/
def Config.patient : Config := { Config.brief with withdrawalDelay := 300 }

example : Config.patient.validate = .ok () := rfl

namespace Harness

def patient : Harness := start ⟨Config.patient, Ledger.new Config.patient, 0⟩

/-- Two clocks that agree, at 400 after eight readings. -/
def oneStep : Clocks := ⟨fun n => if n < 8 then 0 else 400, fun n => if n < 8 then 0 else 400⟩

/-- A maker asks for its money back, its quote is accepted, and the bundle is not included before
    the quote has expired and the withdrawal has matured. -/
def lateOps : List HarnessOp :=
  [.deposit 0 1200000, .deposit 1 2000000, .apply (.registerContract 0 1000),
    .apply (.submitRequest 0 100 [⟨0, .yes, 2, 600000⟩]),
    .apply (.submitQuote 1 ⟨0, 0⟩ 0 500000 2 90), .requestWithdrawal 1 2000000,
    .apply (.acceptRequest ⟨0, 0⟩ [⟨0, 500000⟩]), .submitPending, .executeWithdrawal 1]

theorem monotone_oneStep : Monotone oneStep.engine := by
  intro n m hle
  simp only [oneStep]
  split_ifs <;> omega

/-- The one bundle the maker is paid over. -/
def paidOver (a : Nat) (nonce : Nonce) : Prop := a = 1 ∧ nonce = ⟨0, 0⟩

theorem lets_lateOps :
    Lets oneStep (fun h op => Orderly h op ∧ Binds oneStep paidOver h op) patient lateOps := by
  simp only [lateOps, Lets, and_true]
  refine ⟨⟨trivial, ?_⟩, ⟨trivial, ?_⟩, ⟨rfl, ?_⟩, ⟨rfl, ?_⟩, ⟨rfl, ?_⟩, ⟨trivial, ?_⟩, ⟨rfl, ?_⟩,
    ⟨trivial, ?_⟩, ⟨trivial, ?_⟩⟩
  case refine_9 =>
    rintro _ _ _ ⟨⟩ - - - - - b hway
    obtain rfl := List.mem_singleton.mp hway.ordered
    exact ⟨rfl, rfl⟩
  all_goals
    rintro _ _ _ ⟨⟩

end Harness

end RfqSettlement
