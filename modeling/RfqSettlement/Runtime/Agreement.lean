/-
  RfqSettlement.Runtime.Agreement

  Engine and custody never disagree about a trade.

  The two share no memory.  An intent leaves the engine once; custody answers its nonce
  once and for good; the log says what custody answered; and the engine moves a
  settling request only on such an answer.  `Agrees` is that chain as one invariant
  over the moves of the harness, with the bundles and commands still on the way.
-/

import RfqSettlement.Runtime.Joint
import RfqSettlement.Chain.Delivery
import RfqSettlement.Chain.ExactlyOnce

namespace RfqSettlement

open Ledger (answered)

-- ============================================================================
-- The claims of an accept
-- ============================================================================

/-- The claims committed for a bundle, `qs` being its winners. -/
def Bundle.claims (b : Bundle) (qs : List QuoteIdx) : List Claim :=
  (b.legs.zip qs).map (fun x =>
      ⟨x.1.maker, x.1.size * (UNIT - x.1.fillPrice), .quote x.2, .committed b.basket⟩) ++
    [⟨b.requester, (b.legs.map fun leg => leg.size * leg.fillPrice).sum, .request b.basket,
      .committed b.basket⟩]

/-- Every claim of the accept of `b` is still committed, at its original amount. -/
structure Bundle.Pledged (b : Bundle) (m : Market) : Prop where
  claims : ∃ qs : List QuoteIdx, qs.length = b.legs.length ∧ ∀ k,
    (∃ c, m.claims c = some k ∧ k.status = .committed b.basket) ↔ k ∈ b.claims qs
  pledged : ∀ account, m.pledged b.basket account = b.due account

namespace Bundle

variable {b : Bundle} {m m' : Market} {r : ReqIdx}

theorem Pledged.congr (h : b.Pledged m) (hsame : Market.SamePledges b.basket m m') : b.Pledged m' := by
  obtain ⟨qs, hlen, hclaims⟩ := h.claims
  refine ⟨⟨qs, hlen, fun k => ?_⟩, fun account => (hsame.pledged account).trans (h.pledged account)⟩
  rw [← hclaims k]
  constructor
  · rintro ⟨c, hk, hs⟩
    exact ⟨c, (hsame.claims c k hs).mp hk, hs⟩
  · rintro ⟨c, hk, hs⟩
    exact ⟨c, (hsame.claims c k hs).mpr hk, hs⟩

theorem pledged_of_collateralises (h : Engine.Collateralises r b m m') : b.Pledged m' := by
  obtain rfl := Bundle.basket_eq h.nonce
  obtain ⟨qs, hlen, hadds⟩ := h.placed
  refine ⟨⟨qs, hlen, fun k => ⟨?_, fun hk => ?_⟩⟩, h.due⟩
  · rintro ⟨c, hk, hs⟩
    rcases hadds.only c k hs hk with hold | hnew
    · exact absurd hs (h.before c k hold)
    · exact hnew
  · obtain ⟨hs, c, hc⟩ := hadds.added k hk
    exact ⟨c, hc, hs⟩

end Bundle

-- ============================================================================
-- The fate of an intent
-- ============================================================================

/-- Where the request of a bundle stands, `commands` having been delivered: it awaits its
    answer with everything pledged, or it was handed custody's. -/
inductive Bundle.Fate (b : Bundle) (commands : List Command) (resolved : Nonce → Option TxStatus)
    (m : Market) : Prop where
  | awaits {a : Auction} {deadline : Nat} (hauction : m.auctions b.basket = some a)
      (hstate : a.state = .settling b.nonce deadline) (hlegs : b.legs.length = a.legs.length)
      (hpledged : b.Pledged m)
      (hopen : ∀ status, status.isTerminal = true → .pollSettlement b.nonce status ∉ commands)
  | answered {a : Auction} {status : TxStatus} (hauction : m.auctions b.basket = some a)
      (hstate : a.state = answered status) (hlegs : b.legs.length = a.legs.length)
      (hterminal : status.isTerminal = true) (hresolved : resolved b.nonce = some status)
      (hdelivered : .pollSettlement b.nonce status ∈ commands)

namespace Engine

variable {e e' : Engine} {b : Bundle} {bundles : List Bundle} {command : Command} {now : Nat}
  {commands commands' : List Command} {resolved resolved' : Nonce → Option TxStatus}

/-- Whatever the effect, the market moves by steps of one scope. -/
theorem Effect.steps (heffect : Effect now e e' bundles command) :
    ∃ scope, Market.Steps now scope e.market e'.market := by
  cases heffect with
  | still hsteps => exact ⟨.calm, hsteps .calm⟩
  | traded _ _ _ hsteps => exact ⟨_, hsteps⟩
  | credited hsteps => exact ⟨_, hsteps⟩
  | accepted haccepts => exact ⟨_, haccepts.steps⟩
  | resolved _ hanswers => exact ⟨_, hanswers.steps⟩

/-- An answered request is answered for good. -/
theorem Effect.answered {a : Auction} {status : TxStatus} (heffect : Effect now e e' bundles command)
    (hauction : e.market.auctions b.basket = some a) (hstate : a.state = Ledger.answered status) :
    e'.market.auctions b.basket = some a := by
  obtain ⟨scope, hsteps⟩ := heffect.steps
  obtain ⟨st, hst, hsame | hmoves⟩ := hsteps.auction hauction
  · rw [hst, hsame]
    rfl
  · rw [hstate] at hmoves
    cases status <;> cases hmoves

/-- An open request is left open, rejected, or ordered. -/
theorem Effect.opened {a a' : Auction} {r : ReqIdx} (heffect : Effect now e e' bundles command)
    (hauction : e.market.auctions r = some a) (hopened : a.state = .opened)
    (hauction' : e'.market.auctions r = some a') :
    a'.state = .opened ∨ a'.state = .rejected ∨ ∃ b ∈ bundles, b.nonce = Nonce.of r := by
  have hmoves : ∀ {scope : Scope}, Market.Steps now scope e.market e'.market → scope ≠ .filling r →
      a'.state = .opened ∨ a'.state = .rejected := by
    intro scope hsteps hscope
    obtain ⟨st, hst, hmoved⟩ := hsteps.auction hauction
    obtain rfl := Option.some.inj (hauction'.symm.trans hst)
    rcases hmoved with rfl | hmoved
    · exact .inl hopened
    · rw [hopened] at hmoved
      cases hmoved with
      | settle hfilling => exact absurd hfilling hscope
      | reject => exact .inr rfl
  have hquiet : ∀ {scope : Scope}, Market.Steps now scope e.market e'.market → scope ≠ .filling r →
      a'.state = .opened ∨ a'.state = .rejected ∨ ∃ b ∈ bundles, b.nonce = Nonce.of r :=
    fun hsteps hscope => (hmoves hsteps hscope).imp_right .inl
  cases heffect with
  | still hsteps => exact hquiet (hsteps .calm) (by simp)
  | traded _ hcalm _ hsteps => exact hquiet hsteps (hcalm r).1
  | credited hsteps => exact hquiet hsteps (by simp)
  | resolved _ hanswers => exact hquiet hanswers.steps (by simp)
  | @accepted r' _ bundle _ haccepts hbundles =>
      by_cases hr : r' = r
      · obtain ⟨n, -, hcol⟩ := haccepts.collateral
        exact .inr (.inr ⟨bundle, by simp [hbundles], hr ▸ hcol.nonce⟩)
      · exact hquiet haccepts.steps (by simpa using hr)

/-- A rejected request is rejected for good. -/
theorem Effect.rejected {a : Auction} {r : ReqIdx} (heffect : Effect now e e' bundles command)
    (hauction : e.market.auctions r = some a) (hrejected : a.state = .rejected) :
    e'.market.auctions r = some a := by
  obtain ⟨scope, hsteps⟩ := heffect.steps
  obtain ⟨st, hst, hsame | hmoves⟩ := hsteps.auction hauction
  · rw [hst, hsame]
    rfl
  · rw [hrejected] at hmoves
    cases hmoves

/-- A settling request, and what is pledged to it, stay until its answer is delivered. -/
theorem Effect.awaits {a : Auction} {deadline : Nat} (heffect : Effect now e e' bundles command)
    (hauction : e.market.auctions b.basket = some a) (hstate : a.state = .settling b.nonce deadline) :
    (e'.market.auctions b.basket = some a ∧
        Market.SamePledges b.basket e.market e'.market ∧
        ∀ status, status.isTerminal = true → command ≠ .pollSettlement b.nonce status) ∨
      ∃ status, status.isTerminal = true ∧ command = .pollSettlement b.nonce status ∧
        e'.market.auctions b.basket = some (a.withState (Ledger.answered status)) := by
  have hkeeps : ∀ {scope : Scope}, Market.Steps now scope e.market e'.market →
      scope ≠ .resolving b.basket → e'.market.auctions b.basket = some a := by
    intro scope hsteps hscope
    obtain ⟨st, hst, hsame | hmoves⟩ := hsteps.auction hauction
    · rw [hst, hsame]
      rfl
    · rw [hstate] at hmoves
      cases hmoves with
      | resolve hresolving => exact absurd hresolving hscope
  cases heffect with
  | still hsteps hauctions _ hanswer =>
      refine .inl ⟨(congrFun hauctions _).trans hauction, (hsteps .calm).pledged (by simp) (by simp), ?_⟩
      rintro status hterminal rfl
      exact hanswer b.nonce status b.basket a deadline rfl hterminal hauction hstate
  | traded hgateway hcalm _ hsteps =>
      refine .inl ⟨hkeeps hsteps (hcalm _).2, hsteps.pledged (hcalm _).2 (hcalm _).1, ?_⟩
      rintro status - rfl
      cases hgateway
  | credited hsteps =>
      exact .inl ⟨hkeeps hsteps (by simp), hsteps.pledged (by simp) (by simp), by simp⟩
  | @accepted r _ bundle a' haccepts =>
      have hne : Scope.filling r ≠ .filling b.basket := by
        rintro ⟨⟩
        have hopened := haccepts.opened
        obtain rfl := Option.some.inj (haccepts.auction.symm.trans hauction)
        rw [hstate] at hopened
        cases hopened
      exact .inl ⟨hkeeps haccepts.steps (by simp), haccepts.steps.pledged (by simp) hne, by simp⟩
  | @resolved r status a' hterminal hanswers =>
      by_cases hr : r = b.basket
      · subst hr
        obtain rfl := Option.some.inj (hanswers.auction.symm.trans hauction)
        exact .inr ⟨status, hterminal, rfl, hanswers.resolved⟩
      · have hne : Scope.resolving r ≠ .resolving b.basket := by simpa using hr
        refine .inl ⟨hkeeps hanswers.steps hne, hanswers.steps.pledged hne (by simp), ?_⟩
        rintro status' - heq
        simp only [Command.pollSettlement.injEq] at heq
        exact hr (Nonce.of_injective heq.1)

/-- The fate of a bundle after a command, `commands'` having been delivered by then. -/
theorem Effect.fate (heffect : Effect now e e' bundles command)
    (hfate : b.Fate commands resolved e.market)
    (hresolved : ∀ status, resolved b.nonce = some status → resolved' b.nonce = some status)
    (hdelivered : ∀ x ∈ commands', x ∈ commands ∨ x = command)
    (hkept : ∀ x ∈ commands, x ∈ commands')
    (hanswer : ∀ status, status.isTerminal = true → command = .pollSettlement b.nonce status →
      command ∈ commands' ∧ resolved' b.nonce = some status) :
    b.Fate commands' resolved' e'.market := by
  cases hfate with
  | awaits hauction hstate hlegs hpledged hopen =>
      rcases heffect.awaits hauction hstate with
        ⟨hauction', hsame, hother⟩ | ⟨status, hterminal, hcommand, hauction'⟩
      · refine .awaits hauction' hstate hlegs (hpledged.congr hsame) fun status hterminal hmem => ?_
        rcases hdelivered _ hmem with hold | hnew
        · exact hopen status hterminal hold
        · exact hother status hterminal hnew.symm
      · obtain ⟨hmem, hresolved'⟩ := hanswer status hterminal hcommand
        exact .answered hauction' rfl hlegs hterminal hresolved' (hcommand ▸ hmem)
  | answered hauction hstate hlegs hterminal hstatus hmem =>
      exact .answered (heffect.answered hauction hstate) hstate hlegs hterminal
        (hresolved _ hstatus) (hkept _ hmem)

end Engine

-- ============================================================================
-- The invariant
-- ============================================================================

namespace Harness

open CustodyLedger (SameResolutions SameQueue)

variable {config : Config} {clocks : Clocks} {ok : Harness → HarnessOp → Prop} {op : HarnessOp}
  {h h' : Harness} {commands commands' : List Command} {command : Command} {now : Nat}

/-- Gateway commands straight to the engine, and nothing to custody but through the harness. -/
def Straight (_ : Harness) : HarnessOp → Prop
  | .apply command => command.isGateway = true
  | .custody _ => False
  | _ => True

/-- The escrows formed under a nonce. -/
def formedFor (h : Harness) (nonce : Nonce) : Nat :=
  ((h.included.filter fun i => decide (i.bundle.nonce = nonce)).map fun i => i.tx.formed).sum

/-- Engine and custody agree, with `commands` drained and not yet delivered. -/
structure Agrees (h : Harness) (commands : List Command) : Prop where
  unique : (h.intents.map Bundle.nonce).Nodup
  kept : ∀ b, b ∈ h.pending ∨ b ∈ h.inFlight ∨ b ∈ h.custody.pending → b ∈ h.intents
  included : ∀ i ∈ h.included, i.bundle ∈ h.intents
  fate : ∀ b ∈ h.intents, b.Fate h.commands h.custody.resolved h.engine.market
  origin : ∀ r a, h.engine.market.auctions r = some a →
    a.state = .opened ∨ a.state = .rejected ∨ ∃ b ∈ h.intents, b.nonce = Nonce.of r
  terminal : ∀ nonce status, h.custody.resolved nonce = some status → status.isTerminal = true
  known : ∀ nonce status, h.custody.resolved nonce = some status → ∃ b ∈ h.intents, b.nonce = nonce
  logged : ∀ nonce status, status ∈ h.custody.log.resolutions nonce →
    h.custody.resolved nonce = some status
  heard : ∀ nonce status, .pollSettlement nonce status ∈ h.commands ∨
    .pollSettlement nonce status ∈ commands → h.custody.resolved nonce = some status
  formed : ∀ b ∈ h.intents, h.formedFor b.nonce =
    if h.custody.resolved b.nonce = some .settled then b.legs.length else 0
  escrows : h.custody.escrows.length = (h.included.map fun i => i.tx.formed).sum

theorem agrees_new (hnew : new config = .ok h) : Agrees h [] := by
  obtain ⟨engine, hengine, rfl⟩ := new_eq_ok hnew
  obtain ⟨-, rfl⟩ := Engine.new_eq_ok hengine
  obtain ⟨-, hauctions, -⟩ := Engine.market_new config
  constructor
  all_goals simp [start, intents, Engine.market, hauctions, CustodyLedger.new, ChainLog.new,
    ChainLog.resolutions]

theorem formedFor_congr (hincluded : h'.included = h.included) (nonce : Nonce) :
    h'.formedFor nonce = h.formedFor nonce := by
  rw [formedFor, formedFor, hincluded]

theorem formedFor_append {i : Inclusion} (hincluded : h'.included = h.included ++ [i]) (nonce : Nonce) :
    h'.formedFor nonce = h.formedFor nonce + if i.bundle.nonce = nonce then i.tx.formed else 0 := by
  rw [formedFor, hincluded, List.filter_append, List.map_append, List.sum_append]
  by_cases hi : i.bundle.nonce = nonce
  · simp [formedFor, hi]
  · simp [formedFor, hi]

/-- No nonce of the bundles an accept has yet to hand over was answered or formed anything. -/
theorem Agrees.unformed (hagrees : Agrees h commands) {nonce : Nonce}
    (hfresh : ∀ b ∈ h.intents, b.nonce ≠ nonce) :
    h.formedFor nonce = 0 ∧ h.custody.resolved nonce = none := by
  constructor
  · have hnone : (h.included.filter fun i => decide (i.bundle.nonce = nonce)) = [] := by
      refine List.filter_eq_nil_iff.mpr fun i hi => ?_
      simpa using hfresh _ (hagrees.included i hi)
    rw [formedFor, hnone]
    rfl
  · cases hresolved : h.custody.resolved nonce with
    | none => rfl
    | some status =>
        obtain ⟨b, hb, hnonce⟩ := hagrees.known nonce status hresolved
        exact absurd hnonce (hfresh b hb)

/-- A request being accepted was not ordered before. -/
theorem Agrees.fresh (hagrees : Agrees h commands) {r : ReqIdx} {a : Auction}
    (hauction : h.engine.market.auctions r = some a) (hopened : a.state = .opened) :
    ∀ b ∈ h.intents, b.nonce ≠ Nonce.of r := by
  intro b hb hnonce
  obtain rfl := Bundle.basket_eq hnonce
  cases hagrees.fate b hb with
  | awaits hauction' hstate =>
      obtain rfl := Option.some.inj (hauction.symm.trans hauction')
      rw [hopened] at hstate
      cases hstate
  | @answered _ status hauction' hstate =>
      obtain rfl := Option.some.inj (hauction.symm.trans hauction')
      rw [hopened] at hstate
      cases status <;> cases hstate

/-- What the engine hands over, and when, in a command that is answered by the log alone. -/
theorem Agrees.ordered {bundles : List Bundle} {b : Bundle} (hagrees : Agrees h commands)
    (heffect : Engine.Effect now h.engine h'.engine bundles command) (hb : b ∈ bundles)
    (hdelivered : ∀ x ∈ h'.commands, x ∈ h.commands ∨ x = command) :
    bundles = [b] ∧ (∀ x ∈ h.intents, x.nonce ≠ b.nonce) ∧
      b.Fate h'.commands h'.custody.resolved h'.engine.market := by
  cases heffect with
  | still _ _ hbundles => rw [hbundles] at hb; cases hb
  | traded _ _ _ _ hbundles => rw [hbundles] at hb; cases hb
  | credited _ _ _ hbundles => rw [hbundles] at hb; cases hb
  | resolved _ _ hbundles => rw [hbundles] at hb; cases hb
  | @accepted r _ bundle a haccepts hbundles =>
      rw [hbundles, List.mem_singleton] at hb
      subst hb
      obtain ⟨n, -, hcol⟩ := haccepts.collateral
      have hnonce := hcol.nonce
      have hfresh := hagrees.fresh haccepts.auction haccepts.opened
      obtain ⟨deadline, hsettling⟩ := haccepts.settling
      refine ⟨hbundles, hnonce ▸ hfresh, ?_⟩
      rw [← Bundle.basket_eq hnonce] at hsettling
      refine .awaits hsettling rfl ?_ (Bundle.pledged_of_collateralises hcol) ?_
      · simpa using congrArg List.length haccepts.contracts
      · -- an answer delivered already would be for a request ordered before
        intro status hterminal hmem
        rcases hdelivered _ hmem with hmem | hmem
        · obtain ⟨x, hx, hxb⟩ := hagrees.known _ _ (hagrees.heard _ _ (.inl hmem))
          exact hfresh x hx (hxb.trans hnonce)
        · cases hmem

/-- A request the engine stores is open or rejected, or was ordered. -/
theorem Agrees.origin_turn {bundles : List Bundle} {r : ReqIdx} {a : Auction}
    (hagrees : Agrees h commands) (heffect : Engine.Effect now h.engine h'.engine bundles command)
    (ha : h'.engine.market.auctions r = some a) :
    a.state = .opened ∨ a.state = .rejected ∨ ∃ b ∈ h.intents ++ bundles, b.nonce = Nonce.of r := by
  cases hbefore : h.engine.market.auctions r with
  | none =>
      obtain ⟨scope, hsteps⟩ := heffect.steps
      exact .inl (hsteps.auction_new hbefore ha).1
  | some a₀ =>
      rcases hagrees.origin r a₀ hbefore with hopened | hrejected | ⟨b, hb, hnonce⟩
      · rcases heffect.opened hbefore hopened ha with hstate | hstate | ⟨b, hb, hnonce⟩
        · exact .inl hstate
        · exact .inr (.inl hstate)
        · exact .inr (.inr ⟨b, List.mem_append_right _ hb, hnonce⟩)
      · obtain rfl := Option.some.inj (ha.symm.trans (heffect.rejected hbefore hrejected))
        exact .inr (.inl hrejected)
      · exact .inr (.inr ⟨b, List.mem_append_left _ hb, hnonce⟩)

/-- A command to the engine. -/
theorem Agrees.turn {bundles : List Bundle} (hagrees : Agrees h commands)
    (heffect : Engine.Effect now h.engine h'.engine bundles command)
    (hcustody : h'.custody = h.custody) (hpending : h'.pending = h.pending ++ bundles)
    (hinFlight : h'.inFlight = h.inFlight) (hincluded : h'.included = h.included)
    (hintents : h'.intents = h.intents ++ bundles)
    (hdelivered : ∀ x ∈ h'.commands, x ∈ h.commands ∨ x = command)
    (hkept : ∀ x ∈ h.commands, x ∈ h'.commands) (hrest : ∀ x ∈ commands', x ∈ commands)
    (hanswer : ∀ nonce status, command = .pollSettlement nonce status →
      status.isTerminal = true ∨ command ∈ h'.commands →
        command ∈ h'.commands ∧ h.custody.resolved nonce = some status) : Agrees h' commands' := by
  have hnew : ∀ b ∈ bundles, bundles = [b] ∧ (∀ x ∈ h.intents, x.nonce ≠ b.nonce) ∧
      b.Fate h'.commands h'.custody.resolved h'.engine.market :=
    fun b hb => hagrees.ordered heffect hb hdelivered
  constructor
  · rw [hintents, List.map_append, List.nodup_append]
    refine ⟨hagrees.unique, ?_, ?_⟩
    · cases hbundles : bundles with
      | nil => exact List.nodup_nil
      | cons b rest =>
          have hone := (hnew b (by simp [hbundles])).1
          rw [hbundles] at hone
          rw [hone]
          exact List.nodup_singleton _
    · rintro _ hx _ hy rfl
      obtain ⟨x, hmem, hxy⟩ := List.mem_map.mp hx
      obtain ⟨b, hb, rfl⟩ := List.mem_map.mp hy
      exact (hnew b hb).2.1 x hmem hxy
  · rintro b (hb | hb | hb)
    · rw [hintents]
      rw [hpending] at hb
      rcases List.mem_append.mp hb with hb | hb
      · exact List.mem_append_left _ (hagrees.kept b (.inl hb))
      · exact List.mem_append_right _ hb
    · exact hintents ▸ List.mem_append_left _ (hagrees.kept b (.inr (.inl (hinFlight ▸ hb))))
    · exact hintents ▸ List.mem_append_left _ (hagrees.kept b (.inr (.inr (hcustody ▸ hb))))
  · intro i hi
    exact hintents ▸ List.mem_append_left _ (hagrees.included i (hincluded ▸ hi))
  · intro b hb
    rw [hintents] at hb
    rcases List.mem_append.mp hb with hb | hb
    · refine heffect.fate (hagrees.fate b hb) (fun status => hcustody ▸ id) hdelivered hkept ?_
      intro status hterminal hcommand
      exact hcustody ▸ hanswer b.nonce status hcommand (.inl hterminal)
    · exact (hnew b hb).2.2
  · intro r a ha
    exact hintents ▸ hagrees.origin_turn heffect ha
  · rw [hcustody]
    exact hagrees.terminal
  · intro nonce status hresolved
    obtain ⟨b, hb, hnonce⟩ := hagrees.known nonce status (hcustody ▸ hresolved)
    exact ⟨b, hintents ▸ List.mem_append_left _ hb, hnonce⟩
  · rw [hcustody]
    exact hagrees.logged
  · rw [hcustody]
    rintro nonce status (hmem | hmem)
    · rcases hdelivered _ hmem with hold | rfl
      · exact hagrees.heard nonce status (.inl hold)
      · exact (hanswer nonce status rfl (.inr hmem)).2
    · exact hagrees.heard nonce status (.inr (hrest _ hmem))
  · intro b hb
    rw [formedFor_congr hincluded, hcustody]
    rw [hintents] at hb
    rcases List.mem_append.mp hb with hb | hb
    · exact hagrees.formed b hb
    · obtain ⟨hnone, hresolved⟩ := hagrees.unformed (hnew b hb).2.1
      rw [hnone, hresolved]
      simp
  · rw [hcustody, hincluded]
    exact hagrees.escrows

/-- A move that leaves the engine, the answers and the escrows alone. -/
theorem Agrees.chain (hagrees : Agrees h commands) (hengine : h'.engine = h.engine)
    (hintents : h'.intents = h.intents) (hdelivered : h'.commands = h.commands)
    (hincluded : h'.included = h.included) (hresolved : h'.custody.resolved = h.custody.resolved)
    (hkept : ∀ b, b ∈ h'.pending ∨ b ∈ h'.inFlight ∨ b ∈ h'.custody.pending →
      b ∈ h.pending ∨ b ∈ h.inFlight ∨ b ∈ h.custody.pending)
    (hlogged : ∀ nonce status, status ∈ h'.custody.log.resolutions nonce →
      status ∈ h.custody.log.resolutions nonce)
    (hheard : ∀ nonce status, .pollSettlement nonce status ∈ commands' →
      .pollSettlement nonce status ∈ commands ∨ status ∈ h.custody.log.resolutions nonce)
    (hescrows : h'.custody.escrows.length = h.custody.escrows.length) : Agrees h' commands' where
  unique := hintents ▸ hagrees.unique
  kept b hb := hintents ▸ hagrees.kept b (hkept b hb)
  included i hi := hintents ▸ hagrees.included i (hincluded ▸ hi)
  fate b hb := by
    rw [hengine, hdelivered, hresolved]
    exact hagrees.fate b (hintents ▸ hb)
  origin r a ha := hintents ▸ hagrees.origin r a (hengine ▸ ha)
  terminal := hresolved ▸ hagrees.terminal
  known nonce status hs := hintents ▸ hagrees.known nonce status (hresolved ▸ hs)
  logged nonce status hs := hresolved ▸ hagrees.logged nonce status (hlogged nonce status hs)
  heard nonce status hs := by
    rw [hresolved]
    rcases hs with hs | hs
    · exact hagrees.heard nonce status (.inl (hdelivered ▸ hs))
    · rcases hheard nonce status hs with hs | hs
      · exact hagrees.heard nonce status (.inr hs)
      · exact hagrees.logged nonce status hs
  formed b hb := by
    rw [formedFor_congr hincluded, hresolved]
    exact hagrees.formed b (hintents ▸ hb)
  escrows := by rw [hescrows, hincluded, hagrees.escrows]

/-- An inclusion that answers nothing new: its nonce was answered before. -/
theorem Agrees.bounce {i : Inclusion} (hagrees : Agrees h commands) (hengine : h'.engine = h.engine)
    (hintents : h'.intents = h.intents) (hdelivered : h'.commands = h.commands)
    (hincluded : h'.included = h.included ++ [i]) (hi : i.bundle ∈ h.intents)
    (hnothing : i.tx.formed = 0) (hresolved : h'.custody.resolved = h.custody.resolved)
    (hkept : ∀ b, b ∈ h'.pending ∨ b ∈ h'.inFlight ∨ b ∈ h'.custody.pending →
      b ∈ h.pending ∨ b ∈ h.inFlight ∨ b ∈ h.custody.pending)
    (hlog : h'.custody.log = h.custody.log)
    (hescrows : h'.custody.escrows = h.custody.escrows) : Agrees h' commands := by
  have hrest : Agrees { h' with included := h.included } commands := hagrees.chain hengine hintents
    hdelivered rfl hresolved hkept (fun nonce status => by rw [hlog]; exact id) (fun _ _ => .inl)
    (congrArg List.length hescrows)
  refine { hrest with included := ?_, formed := ?_, escrows := ?_ }
  · intro j hj
    rw [hincluded] at hj
    rcases List.mem_append.mp hj with hj | hj
    · exact hintents ▸ hagrees.included j hj
    · rw [List.mem_singleton.mp hj]
      exact hintents ▸ hi
  · intro b hb
    rw [formedFor_append hincluded, hnothing, hresolved, ite_self]
    exact hagrees.formed b (hintents ▸ hb)
  · rw [hescrows, hincluded, List.map_append, List.sum_append, hagrees.escrows]
    simp [hnothing]

/-- An inclusion that answers a nonce, once and for all. -/
theorem Agrees.resolve {i : Inclusion} (status : TxStatus) (hagrees : Agrees h commands)
    (hengine : h'.engine = h.engine) (hintents : h'.intents = h.intents)
    (hdelivered : h'.commands = h.commands) (hincluded : h'.included = h.included ++ [i])
    (hi : i.bundle ∈ h.intents) (hnone : h.custody.resolved i.bundle.nonce = none)
    (hterminal : status.isTerminal = true)
    (hformed : i.tx.formed = if status = .settled then i.bundle.legs.length else 0)
    (hresolved : h'.custody.resolved =
      Function.update h.custody.resolved i.bundle.nonce (some status))
    (hkept : ∀ b, b ∈ h'.pending ∨ b ∈ h'.inFlight ∨ b ∈ h'.custody.pending →
      b ∈ h.pending ∨ b ∈ h.inFlight ∨ b ∈ h.custody.pending)
    (hlogged : ∀ nonce, h'.custody.log.resolutions nonce =
      h.custody.log.resolutions nonce ++ if i.bundle.nonce = nonce then [status] else [])
    (hescrows : h'.custody.escrows.length = h.custody.escrows.length + i.tx.formed) :
    Agrees h' commands := by
  have hsame : ∀ nonce status', h.custody.resolved nonce = some status' →
      h'.custody.resolved nonce = some status' := by
    intro nonce status' hs
    rw [hresolved, Function.update_apply]
    split
    next heq =>
      rw [heq, hnone] at hs
      cases hs
    next => exact hs
  have hcases : ∀ nonce status', h'.custody.resolved nonce = some status' →
      nonce = i.bundle.nonce ∧ status' = status ∨ h.custody.resolved nonce = some status' := by
    intro nonce status' hs
    rw [hresolved, Function.update_apply] at hs
    split at hs
    next heq => exact .inl ⟨heq, (Option.some.inj hs).symm⟩
    next => exact .inr hs
  constructor
  · exact hintents ▸ hagrees.unique
  · exact fun b hb => hintents ▸ hagrees.kept b (hkept b hb)
  · intro j hj
    rw [hincluded] at hj
    rcases List.mem_append.mp hj with hj | hj
    · exact hintents ▸ hagrees.included j hj
    · rw [List.mem_singleton.mp hj]
      exact hintents ▸ hi
  · intro b hb
    rw [hengine, hdelivered]
    cases hagrees.fate b (hintents ▸ hb) with
    | awaits hauction hstate hlegs hpledged hopen =>
        exact .awaits hauction hstate hlegs hpledged hopen
    | answered hauction hstate hlegs hterminal' hs hmem =>
        exact .answered hauction hstate hlegs hterminal' (hsame _ _ hs) hmem
  · exact fun r a ha => hintents ▸ hagrees.origin r a (hengine ▸ ha)
  · intro nonce status' hs
    rcases hcases nonce status' hs with ⟨-, rfl⟩ | hold
    · exact hterminal
    · exact hagrees.terminal nonce status' hold
  · intro nonce status' hs
    rcases hcases nonce status' hs with ⟨rfl, -⟩ | hold
    · exact ⟨i.bundle, hintents ▸ hi, rfl⟩
    · exact hintents ▸ hagrees.known nonce status' hold
  · intro nonce status' hs
    rw [hlogged nonce] at hs
    rcases List.mem_append.mp hs with hs | hs
    · exact hsame _ _ (hagrees.logged nonce status' hs)
    · split at hs
      next heq =>
        rw [List.mem_singleton.mp hs, ← heq, hresolved, Function.update_self]
      next => cases hs
  · exact fun nonce status' hs => hsame _ _ (hagrees.heard nonce status' (hdelivered ▸ hs))
  · intro b hb
    rw [formedFor_append hincluded, hresolved, Function.update_apply]
    have hold := hagrees.formed b (hintents ▸ hb)
    by_cases heq : i.bundle.nonce = b.nonce
    · have hbundle : i.bundle = b :=
        List.inj_on_of_nodup_map hagrees.unique hi (hintents ▸ hb) heq
      subst hbundle
      rw [hnone, if_neg (by simp)] at hold
      simp [hold, hformed]
    · have hne : b.nonce ≠ i.bundle.nonce := fun hsymm => heq hsymm.symm
      simp only [if_neg heq, if_neg hne, hold, Nat.add_zero]
  · rw [hescrows, hincluded, List.map_append, List.sum_append, hagrees.escrows]
    simp

/-- Including the oldest submission. -/
theorem Agrees.include {bundle : Bundle} {pending : List Bundle} {tx : CustodyLedger.IncludedTx}
    (hagrees : Agrees h commands) (hpending : h.custody.pending = bundle :: pending)
    (htx : (h.custody.includeNext [] now).1 = some tx) (hengine : h'.engine = h.engine)
    (hintents : h'.intents = h.intents) (hdelivered : h'.commands = h.commands)
    (hincluded : h'.included = h.included ++ [⟨bundle, now, tx⟩]) (hwaiting : h'.pending = h.pending)
    (hinFlight : h'.inFlight = h.inFlight) (hcustody : h'.custody = (h.custody.includeNext [] now).2) :
    Agrees h' commands := by
  have hi : bundle ∈ h.intents := hagrees.kept bundle (.inr (.inr (by simp [hpending])))
  have htail := CustodyLedger.pending_includeNext h.custody [] now
  rw [← hcustody, hpending, List.tail_cons] at htail
  have hkept : ∀ b, b ∈ h'.pending ∨ b ∈ h'.inFlight ∨ b ∈ h'.custody.pending →
      b ∈ h.pending ∨ b ∈ h.inFlight ∨ b ∈ h.custody.pending := by
    rw [hwaiting, hinFlight, htail, hpending]
    intro b hb
    exact hb.imp_right (Or.imp_right (List.mem_cons_of_mem _))
  have hcases := CustodyLedger.includeNext_cases h.custody [] now
  generalize h.custody.includeNext [] now = result at hcases htx hcustody
  cases hcases with
  | idle hidle => cases htx
  | bounced hpending' =>
      obtain rfl := Option.some.inj htx
      exact hagrees.bounce hengine hintents hdelivered hincluded hi rfl (by rw [hcustody]) hkept
        (by rw [hcustody]) (by rw [hcustody])
  | @reverted bundle' pending' err hpending' hresolved =>
      obtain ⟨rfl, rfl⟩ := List.cons.inj (hpending.symm.trans hpending')
      obtain rfl := Option.some.inj htx
      refine hagrees.resolve .reverted hengine hintents hdelivered hincluded hi hresolved
        rfl rfl (by rw [hcustody]; rfl) hkept (fun nonce => ?_) (by rw [hcustody]; rfl)
      rw [hcustody]
      exact ChainLog.resolutions_append_resolved _ _ _ _
  | @settled bundle' pending' receipt debits hpending' hresolved hvalidated hroom hreceipt =>
      obtain ⟨rfl, rfl⟩ := List.cons.inj (hpending.symm.trans hpending')
      obtain rfl := Option.some.inj htx
      have hfire : ({ h.custody with pending } : CustodyLedger).fire [] = { h.custody with pending } :=
        rfl
      refine hagrees.resolve .settled hengine hintents hdelivered hincluded hi hresolved
        rfl hreceipt ?_ hkept (fun nonce => ?_) ?_
      · rw [hcustody, hfire]
        simp only [CustodyLedger.announce, CustodyLedger.resolved_commitBundle, Function.update_idem]
      · rw [hcustody, hfire]
        refine (ChainLog.resolutions_append_resolved _ _ _ _).trans ?_
        rw [CustodyLedger.sameResolutions_commitBundle bundle debits nonce]
      · rw [hcustody, hfire]
        simp only [CustodyLedger.announce, CustodyLedger.escrows_commitBundle, List.length_append]
        simp [Bundle.escrows, CustodyLedger.IncludedTx.formed, hreceipt]

/-- An operation of custody's ledger: it answers nothing and forms nothing. -/
theorem Agrees.ledger (ledgerOp : CustodyLedger.LedgerOp) (hagrees : Agrees h commands)
    (hengine : h'.engine = h.engine) (hintents : h'.intents = h.intents)
    (hdelivered : h'.commands = h.commands) (hincluded : h'.included = h.included)
    (hpending : h'.pending = h.pending) (hinFlight : h'.inFlight = h.inFlight)
    (hcustody : h'.custody = ledgerOp.apply h.custody) : Agrees h' commands := by
  have hqueue : SameQueue h.custody h'.custody := by
    rw [hcustody]
    exact CustodyLedger.sameQueue_fire (l := h.custody) [ledgerOp]
  refine hagrees.chain hengine hintents hdelivered hincluded hqueue.resolved ?_ ?_ (fun _ _ => .inl) ?_
  · rw [hpending, hinFlight, hqueue.pending]
    exact fun b hb => hb
  · rw [hcustody]
    intro nonce status hs
    rwa [CustodyLedger.sameResolutions_apply ledgerOp nonce] at hs
  · rw [hcustody]
    exact CustodyLedger.escrows_length_apply ledgerOp

theorem mem_resolutions {log : ChainLog} {entry : ChainEvent} {nonce : Nonce} {status : TxStatus}
    (hentry : entry ∈ log.entries) (hcommand : Indexer.translate entry = .pollSettlement nonce status) :
    status ∈ log.resolutions nonce := by
  refine List.mem_filterMap.mpr ⟨entry, hentry, ?_⟩
  unfold Indexer.translate at hcommand
  split at hcommand
  all_goals simp_all

theorem resolutions_append_request {log : ChainLog} {payload : ChainPayload} {nonce : Nonce}
    (hrequest : isRequest payload = true) :
    (log.append payload).resolutions nonce = log.resolutions nonce := by
  cases payload with
  | oracleStatusReported | escrowSettled => simp [ChainLog.resolutions, ChainLog.append]
  | balanceChanged | settlementResolved => cases hrequest

theorem resolutions_reorg {log : ChainLog} {block : Nat} {nonce : Nonce} {status : TxStatus}
    (hs : status ∈ (log.reorg block).resolutions nonce) : status ∈ log.resolutions nonce := by
  obtain ⟨entry, hentry, hstatus⟩ := List.mem_filterMap.mp hs
  exact List.mem_filterMap.mpr ⟨entry, (List.mem_filter.mp hentry).1, hstatus⟩

theorem Agrees.move (hagrees : Agrees h commands) (ht : Timed config clocks h)
    (hmove : Move clocks ok op h commands h' commands') (hstraight : ∀ h op, ok h op → Straight h op) :
    Agrees h' commands' := by
  cases hmove with
  | @applied command hop hok =>
      have hgateway : Straight h (.apply command) := hop ▸ hstraight h op hok
      refine hagrees.turn (ht.effect command) rfl rfl rfl rfl
        intents_apply (fun x hx => .inl hx) (fun x hx => hx) (fun x hx => hx) ?_
      rintro nonce status rfl
      cases hgateway
  | @polled request nonce hop hopen =>
      refine hagrees.turn (ht.effect _) rfl rfl rfl rfl intents_apply
        (fun x hx => .inl hx) (fun x hx => hx) (fun x hx => hx) ?_
      rintro _ _ ⟨⟩ (hterminal | hmem)
      · rw [hopen] at hterminal
        cases hterminal
      · exact ⟨hmem, hagrees.heard _ _ (.inl hmem)⟩
  | @delivered command commands =>
      refine hagrees.turn (ht.effect command) rfl rfl rfl rfl
        intents_deliver ?_ ?_ (fun x hx => List.mem_cons_of_mem _ hx) ?_
      · intro x hx
        simpa using hx
      · intro x hx
        simp [hx]
      · rintro nonce status rfl -
        exact ⟨by simp, hagrees.heard nonce status (.inr (by simp))⟩
  | drained =>
      refine hagrees.chain rfl rfl rfl rfl rfl (fun b hb => hb) (fun _ _ hs => hs) ?_ rfl
      intro nonce status hmem
      obtain ⟨entry, hentry, hcommand⟩ := Indexer.mem_of_drain hmem
      exact .inr (mem_resolutions hentry hcommand)
  | @deposited account amount =>
      exact hagrees.ledger (.deposit account amount) rfl rfl rfl rfl rfl rfl rfl
  | @requested account amount =>
      exact hagrees.ledger (.requestWithdrawal account amount (clocks.chain h.reads)) rfl
        rfl rfl rfl rfl rfl rfl
  | @executed account =>
      exact hagrees.ledger (.executeWithdrawal account (clocks.chain h.reads)) rfl rfl rfl
        rfl rfl rfl rfl
  | @sent bundle pending hop hpending =>
      refine hagrees.chain rfl rfl rfl rfl rfl ?_ (fun _ _ hs => hs) (fun _ _ => .inl) rfl
      rintro b (hb | hb | hb)
      · exact .inl (by rw [hpending]; exact List.mem_cons_of_mem _ hb)
      · rcases List.mem_append.mp hb with hb | hb
        · exact .inr (.inl hb)
        · exact .inl (by rw [hpending, List.mem_singleton.mp hb]; exact List.mem_cons_self)
      · rcases List.mem_append.mp hb with hb | hb
        · exact .inr (.inr hb)
        · exact .inl (by rw [hpending, List.mem_singleton.mp hb]; exact List.mem_cons_self)
  | @resent request bundle hop hkept =>
      refine hagrees.chain rfl rfl rfl rfl rfl ?_ (fun _ _ hs => hs) (fun _ _ => .inl) rfl
      rintro b (hb | hb | hb)
      · exact .inl hb
      · exact .inr (.inl hb)
      · rcases List.mem_append.mp hb with hb | hb
        · exact .inr (.inr hb)
        · exact .inr (.inl (List.mem_singleton.mp hb ▸ hkept))
  | lost =>
      have hdrop : (h.custody.dropNextSubmission.2 = h.custody) ∨
          h.custody.dropNextSubmission.2 = { h.custody with pending := h.custody.pending.tail } := by
        unfold CustodyLedger.dropNextSubmission
        split
        · exact .inl rfl
        next heq => exact .inr (by rw [heq]; rfl)
      refine hagrees.chain rfl rfl rfl rfl ?_ ?_ ?_ (fun _ _ => .inl) ?_
      all_goals rcases hdrop with heq | heq
      all_goals rw [heq]
      · exact fun b hb => hb
      · exact fun b hb => hb.imp_right (Or.imp_right List.mem_of_mem_tail)
      · exact fun _ _ hs => hs
      · exact fun _ _ hs => hs
  | included hop hok hpending htx =>
      exact hagrees.include hpending htx rfl rfl rfl rfl rfl rfl rfl
  | @paid intent payouts hop hok hpayouts =>
      cases intent with
      | settleIntent escrow contract outcome =>
          exact hagrees.ledger (.settleEscrow escrow contract outcome) rfl rfl rfl rfl rfl
            rfl rfl
      | _ => exact hagrees.chain rfl rfl rfl rfl rfl (fun b hb => hb) (fun _ _ hs => hs)
              (fun _ _ => .inl) rfl
  | logged hrequest =>
      refine hagrees.chain rfl rfl rfl rfl rfl (fun b hb => hb) ?_ (fun _ _ => .inl) rfl
      intro nonce status hs
      rwa [resolutions_append_request hrequest] at hs
  | reorged =>
      exact hagrees.chain rfl rfl rfl rfl rfl (fun b hb => hb) (fun _ _ hs => resolutions_reorg hs)
        (fun _ _ => .inl) rfl
  | @handled custodyOp hop hok =>
      have hnever : Straight h (.custody custodyOp) := hop ▸ hstraight h op hok
      exact hnever.elim
  | _ => exact hagrees.chain rfl rfl rfl rfl rfl (fun b hb => hb) (fun _ _ hs => hs)
          (fun _ _ => .inl) rfl

/-- Engine and custody agree on every harness reached. -/
theorem Reached.agrees (hreached : Reached config clocks ok h) (hmono : Monotone clocks.engine)
    (hstraight : ∀ h op, ok h op → Straight h op) : Timed config clocks h ∧ Agrees h [] := by
  refine hreached.induct (P := fun h commands => Timed config clocks h ∧ Agrees h commands) ?_ ?_
  · exact fun h hnew => ⟨timed_new hnew, agrees_new hnew⟩
  · rintro op h commands h' commands' hmove ⟨ht, hagrees⟩
    exact ⟨ht.move hmono hmove, hagrees.move ht hmove hstraight⟩

/-- In every harness reached by gateway commands, whatever the queue, the log and the two
    clocks do: what the engine stores as escrowed custody has settled, with an escrow for
    every leg; what it stores as failed custody has reverted, with none; and until one of
    the two is delivered the request settles with all its claims committed.  No nonce is
    ordered twice, and every escrow is of an inclusion. -/
theorem agreement (hreached : Reached config clocks Straight h) (hmono : Monotone clocks.engine) :
    (∀ r record, h.engine.ledger.request r = some record →
        (record.state = .escrowed →
          h.custody.status (Nonce.of r) = .settled ∧ h.formedFor (Nonce.of r) = record.nLegs) ∧
        (record.state = .settlementFailed →
          h.custody.status (Nonce.of r) = .reverted ∧ h.formedFor (Nonce.of r) = 0)) ∧
      (∀ b ∈ h.intents,
        (∀ status, status.isTerminal = true → .pollSettlement b.nonce status ∉ h.commands) →
        ∃ record deadline, h.engine.ledger.request b.basket = some record ∧
          record.state = .settling b.nonce deadline ∧ b.Pledged h.engine.market) ∧
      (h.intents.map Bundle.nonce).Nodup ∧
      h.custody.escrows.length = (h.included.map fun i => i.tx.formed).sum := by
  obtain ⟨-, hagrees⟩ := hreached.agrees hmono fun _ _ => id
  refine ⟨fun r record hrecord => ?_, fun b hb hopen => ?_, hagrees.unique, hagrees.escrows⟩
  · have hauction := Ledger.market_auctions hrecord
    have hanswered : ∀ status, record.state = answered status → record.state ≠ .opened →
        record.state ≠ .rejected → (∀ deadline, record.state ≠ .settling (Nonce.of r) deadline) →
          ∃ status', answered status' = answered status ∧
            status'.isTerminal = true ∧ h.custody.resolved (Nonce.of r) = some status' ∧
            h.formedFor (Nonce.of r) = if status' = .settled then record.nLegs else 0 := by
      intro status hstate hopened hrejected hsettling
      rcases hagrees.origin r _ hauction with hst | hst | ⟨b, hb, hnonce⟩
      · exact absurd hst hopened
      · exact absurd hst hrejected
      have hbasket := Bundle.basket_eq hnonce
      have hformed := hagrees.formed b hb
      rw [hnonce] at hformed
      cases hagrees.fate b hb with
      | awaits hauction' hst =>
          rw [hbasket] at hauction'
          obtain rfl := Option.some.inj (hauction.symm.trans hauction')
          rw [hnonce] at hst
          exact absurd hst (hsettling _)
      | @answered _ status' hauction' hst hlegs hterminal hresolved =>
          rw [hbasket] at hauction'
          obtain rfl := Option.some.inj (hauction.symm.trans hauction')
          have hlen : b.legs.length = record.nLegs := by
            simpa [Request.auction, Request.nLegs] using hlegs
          rw [hnonce] at hresolved
          refine ⟨status', hst.symm.trans hstate, hterminal, hresolved, ?_⟩
          rw [hformed, hresolved, hlen]
          simp
    constructor
    · intro hstate
      obtain ⟨status, hanswer, hterminal, hresolved, hformed⟩ := hanswered .settled hstate
        (by simp [hstate]) (by simp [hstate]) (by simp [hstate])
      cases status with
      | settled => exact ⟨CustodyLedger.status_of_resolved hresolved, by simpa using hformed⟩
      | reverted => cases hanswer
      | unknown => cases hterminal
      | pending => cases hterminal
    · intro hstate
      obtain ⟨status, hanswer, hterminal, hresolved, hformed⟩ := hanswered .reverted hstate
        (by simp [hstate]) (by simp [hstate]) (by simp [hstate])
      cases status with
      | settled => cases hanswer
      | reverted => exact ⟨CustodyLedger.status_of_resolved hresolved, by simpa using hformed⟩
      | unknown => cases hterminal
      | pending => cases hterminal
  · cases hagrees.fate b hb with
    | @awaits _ deadline hauction hstate hlegs hpledged _ =>
        obtain ⟨record, hrecord, rfl⟩ := Ledger.request_of_market hauction
        exact ⟨record, deadline, hrecord, hstate, hpledged⟩
    | answered _ _ _ hterminal _ hmem => exact absurd hmem (hopen _ hterminal)

/-- Both clocks stand at `instant`. -/
def stopped (instant : Nat) : Clocks := ⟨fun _ => instant, fun _ => instant⟩

/-- A venue small enough to run by hand. -/
def small : Harness := start ⟨Config.small, Ledger.new Config.small, 0⟩

theorem reached_small : Reached Config.small clocks ok small := .new rfl

/-- A trade whose first submission is lost, to where it is escrowed. -/
def tradeOps : List HarnessOp :=
  [.deposit 0 10000000, .deposit 1 10000000, .advanceBlock, .apply (.registerContract 0 1000),
    .apply (.submitRequest 0 50 [⟨0, .yes, 2, 600000⟩]),
    .apply (.submitQuote 1 ⟨0, 0⟩ 0 500000 2 60), .apply (.acceptRequest ⟨0, 0⟩ [⟨0, 500000⟩]),
    .submitPending, .loseNextSubmission, .resubmit ⟨0, 0⟩, .includeAll, .advanceBlock]

theorem agreement_traded :
    ((small.run (stopped 5) tradeOps).custody.status ⟨0, 0⟩ = .settled) ∧
      (small.run (stopped 5) tradeOps).formedFor ⟨0, 0⟩ = 1 := by
  have hreached : Reached Config.small (stopped 5) Straight (small.run (stopped 5) tradeOps) :=
    reached_small.run tradeOps (by simp [tradeOps, Lets, Straight, Command.isGateway])
  obtain ⟨hanswers, -⟩ := agreement hreached monotone_const
  obtain ⟨record, hrecord, hstate, hlegs⟩ : ∃ record,
      (small.run (stopped 5) tradeOps).engine.ledger.request ⟨0, 0⟩ = some record ∧
        record.state = .escrowed ∧ record.nLegs = 1 := by
    have hsome : ((small.run (stopped 5) tradeOps).engine.ledger.request ⟨0, 0⟩).any
        (fun record => decide (record.state = .escrowed ∧ record.nLegs = 1)) = true := by
      decide +kernel
    obtain ⟨record, hrecord, hholds⟩ := (Option.any_eq_true _ _).mp hsome
    exact ⟨record, hrecord, of_decide_eq_true hholds⟩
  exact hlegs ▸ (hanswers ⟨0, 0⟩ record hrecord).1 hstate

end Harness

end RfqSettlement
