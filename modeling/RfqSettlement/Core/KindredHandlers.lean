/-
  RfqSettlement.Core.KindredHandlers

  The command handlers on two engines that differ in nothing but claims.

  A handler reads claims in three places: the coverage check, the slab of claims when it
  opens one, and the committed list a settlement is discharged from.  Where those answer
  alike the two have one answer, emit the same events and leave two such engines.
-/

import RfqSettlement.Core.KindredRecords
import RfqSettlement.Core.Defences
import RfqSettlement.Core.Discharging

namespace RfqSettlement

-- ============================================================================
-- Works
-- ============================================================================

structure Work.Kindred (w w' : Work) : Prop where
  ledger : Ledger.Kindred w.1 w'.1
  events : w.2 = w'.2

namespace Work.Kindred

variable {w w' : Work}

theorem releaseQuote (h : Work.Kindred w w') (r : ReqIdx) (i now : Nat) (reason : QuoteRejectReason)
    (q : QuoteIdx) : Work.Kindred (w.releaseQuote r i now reason q) (w'.releaseQuote r i now reason q) := by
  unfold Work.releaseQuote
  have hx := h.ledger.quote q
  generalize w.1.quote q = x at hx
  generalize w'.1.quote q = x' at hx
  cases hx with
  | none => exact h
  | @some x x' hx =>
      have hlive : x.isLiveAt now = x'.isLiveAt now :=
        (congrArg (fun y : Quote => y.isLiveAt now) hx : (x.setClaim none).isLiveAt now = _)
      have hmaker : x.maker = x'.maker := (congrArg Quote.maker hx : (x.setClaim none).maker = _)
      dsimp only
      rw [hlive, hmaker, h.events]
      exact ⟨h.ledger.retireQuote r i q _ _, rfl⟩

theorem releaseLeg (h : Work.Kindred w w') (r : ReqIdx) (i : Nat) (keep : Option Selection) (now : Nat)
    (reason : QuoteRejectReason) :
    Work.Kindred (w.releaseLeg r i keep now reason) (w'.releaseLeg r i keep now reason) := by
  unfold Work.releaseLeg
  rw [h.ledger.legOf]
  split
  · exact ⟨h.ledger.assert, h.events⟩
  next x _ =>
  have hdoomed : Work.doomed w.1 x keep = Work.doomed w'.1 x keep := by
    rw [Work.doomed, Work.doomed, h.ledger.handles]
  rw [hdoomed]
  exact Entrywise.foldl (fun _ _ q hw => hw.releaseQuote r i now reason q) _ h

theorem rejectLegs (h : Work.Kindred w w') (r : ReqIdx) (n now : Nat) :
    Work.Kindred (Engine.rejectLegs w r n now) (Engine.rejectLegs w' r n now) :=
  Entrywise.foldl (fun _ _ i hw => hw.releaseLeg r i none now .requestRejected) _ h

theorem withdrawStanding (h : Work.Kindred w w') (maker : Nat) (r : ReqIdx) (i : Nat)
    (standing : Option QuoteIdx) : Work.Kindred (Engine.withdrawStanding w maker r i standing)
      (Engine.withdrawStanding w' maker r i standing) := by
  cases standing with
  | none => exact h
  | some q =>
      unfold Engine.withdrawStanding
      dsimp only
      rw [h.events]
      exact ⟨h.ledger.retireQuote r i q _ _, rfl⟩

theorem publishSelection (h : Work.Kindred w w') (r : ReqIdx) (i now : Nat) :
    Work.Kindred (w.publishSelection r i now) (w'.publishSelection r i now) := by
  unfold Work.publishSelection
  rw [h.ledger.legOf, h.events]
  split
  · exact h
  rw [h.ledger.bestOnLeg]
  split
  · exact h
  split
  · exact h
  · exact ⟨h.ledger.modifyLeg r i _, rfl⟩

end Work.Kindred

namespace Ledger.Kindred

variable {l l' : Ledger}

/-- A winner is consumed in both, with its claim or without. -/
theorem consumeWinner (h : Kindred l l') (r : ReqIdx) (winner : Selection) :
    Kindred (Engine.consumeWinner l r winner) (Engine.consumeWinner l' r winner) := by
  have hconsumed := h.modifyQuote winner.quote (f := fun x => x.setState .consumed) fun _ => rfl
  have hright : Kindred (l.modifyQuote winner.quote fun x => x.setState .consumed)
      (Engine.consumeWinner l' r winner) := by
    unfold Engine.consumeWinner
    dsimp only
    split
    · exact hconsumed.commitCommit _ r _
    · exact hconsumed
  generalize Engine.consumeWinner l' r winner = m at hright ⊢
  refine symm ?_
  unfold Engine.consumeWinner
  dsimp only
  split
  · exact hright.symm.commitCommit _ r _
  · exact hright.symm

/-- Once the winners' claims are gone from both, the same quotes are closed. -/
theorem closeConsumedQuotes (h : Kindred l l') (r : ReqIdx)
    (hl : ∀ q x, l.quote q = some x → x.request = r → x.state = .consumed → x.claim = none)
    (hl' : ∀ q x, l'.quote q = some x → x.request = r → x.state = .consumed → x.claim = none) :
    Kindred (Engine.closeConsumedQuotes l r) (Engine.closeConsumedQuotes l' r) := by
  have hplain : ∀ {l : Ledger},
      (∀ q x, l.quote q = some x → x.request = r → x.state = .consumed → x.claim = none) →
      (l.quotes.iter.filter fun x =>
        decide (x.2.request = r ∧ x.2.state = .consumed ∧ x.2.claim = none)).map Prod.fst =
      ((l.quotes.iter.map fun x => (x.1, x.2.setClaim none)).filter fun x =>
        decide (x.2.request = r ∧ x.2.state = .consumed)).map Prod.fst := by
    intro l hl
    rw [List.filter_map, List.map_map]
    refine congrArg (List.map Prod.fst) (List.filter_congr fun x hx => ?_)
    have hclaim := hl x.1 x.2 (Slab.mem_iter.mp hx)
    show decide _ = decide (x.2.request = r ∧ x.2.state = .consumed)
    rw [decide_eq_decide]
    exact ⟨fun ⟨hr, hs, _⟩ => ⟨hr, hs⟩, fun ⟨hr, hs⟩ => ⟨hr, hs, hclaim hr hs⟩⟩
  unfold Engine.closeConsumedQuotes
  dsimp only
  rw [hplain hl, hplain hl', h.quotes.iter fun _ _ hx => hx]
  exact Entrywise.foldl (fun _ _ q hl => hl.closeQuote q) _ h

theorem notices (h : Kindred l l') {visited visited' : List (ResOwner × Nat)} (heq : visited = visited') :
    Engine.notices l visited = Engine.notices l' visited' := by
  unfold Engine.notices
  rw [heq]
  simp only [h.maker]

theorem resolveNonce (h : Kindred l l') (nonce : Nonce) :
    Engine.resolveNonce l nonce = Engine.resolveNonce l' nonce := by
  rw [Engine.resolveNonce, Engine.resolveNonce, h.requestHandleAt]

end Ledger.Kindred

-- ============================================================================
-- Engines and answers
-- ============================================================================

namespace Engine

structure Kindred (e e' : Engine) : Prop where
  config : e.config = e'.config
  ledger : Ledger.Kindred e.ledger e'.ledger
  nextArrival : e.nextArrival = e'.nextArrival

structure Answer.Kindred (x x' : Answer) : Prop where
  answer : x.1 = x'.1
  engine : Engine.Kindred x.2.1 x'.2.1
  events : x.2.2 = x'.2.2

variable {e e' : Engine} {b : EventBuffer} {r : ReqIdx} {now : Nat} {expected : List ExpectedFill}

theorem Kindred.refl (e : Engine) : Kindred e e := ⟨rfl, .refl _, rfl⟩

theorem Kindred.refuse (h : Kindred e e') (err : EngineError) :
    Answer.Kindred (e.refuse b err) (e'.refuse b err) := ⟨rfl, h, rfl⟩

theorem Kindred.done (h : Kindred e e') {w w' : Work} (hw : Work.Kindred w w') :
    Answer.Kindred (e.done w) (e'.done w') :=
  ⟨rfl, ⟨h.config, hw.ledger, h.nextArrival⟩, hw.events⟩

theorem Kindred.start (h : Kindred e e') : Work.Kindred (e.ledger, b) (e'.ledger, b) := ⟨h.ledger, rfl⟩

-- ============================================================================
-- Requests
-- ============================================================================

theorem Kindred.checkLegs (h : Kindred e e') (specs : List LegSpec) (total : Nat) :
    e.checkLegs now specs total = e'.checkLegs now specs total := by
  induction specs generalizing total with
  | nil => rfl
  | cons spec specs ih => simp only [Engine.checkLegs, h.ledger.contract, h.config, ih]

theorem Kindred.submitRequest (h : Kindred e e') {requester deadline : Nat} {specs : List LegSpec}
    (hcheck : ∀ amount, e.ledger.checkReservable requester amount = e'.ledger.checkReservable requester amount)
    (hroom : (e.submitRequest requester deadline specs now b).1 ≠ .error (.ledger (.slabExhausted .reservation)))
    (hroom' : (e'.submitRequest requester deadline specs now b).1 ≠
      .error (.ledger (.slabExhausted .reservation))) :
    Answer.Kindred (e.submitRequest requester deadline specs now b)
      (e'.submitRequest requester deadline specs now b) := by
  unfold Engine.submitRequest at hroom hroom' ⊢
  rw [← h.config, ← h.checkLegs] at hroom' ⊢
  by_cases hlegs : specs.length = 0
  · simp only [hlegs, if_true]
    exact h.refuse _
  by_cases hmany : e.config.maxLegs < specs.length
  · simp only [hlegs, hmany, if_true, if_false]
    exact h.refuse _
  by_cases hpast : deadline ≤ now
  · simp only [hlegs, hmany, hpast, if_true, if_false]
    exact h.refuse _
  by_cases hfar : e.config.maxRequestTtl < deadline - now
  · simp only [hlegs, hmany, hpast, hfar, if_true, if_false]
    exact h.refuse _
  simp only [hlegs, hmany, hpast, hfar, if_false] at hroom hroom' ⊢
  cases hspecs : e.checkLegs now specs 0 with
  | error err => exact h.refuse _
  | ok amount =>
      simp only [hspecs] at hroom hroom' ⊢
      by_cases hfull : b.headroom 1 = true
      · simp only [hfull, Bool.not_true, Bool.false_eq_true, if_false] at hroom hroom' ⊢
        generalize hrecord : Request.new requester deadline
          (specs.map fun s => Leg.new s.contract s.side s.size s.limit) = record at hroom hroom' ⊢
        have hrequester : record.requester = requester := by rw [← hrecord]; rfl
        rcases hopen : e.ledger.openRequestReserving record amount with ⟨x, m⟩
        rcases hopen' : e'.ledger.openRequestReserving record amount with ⟨x', m'⟩
        rw [hopen] at hroom
        rw [hopen'] at hroom'
        rcases h.ledger.openRequestReserving record amount
            (hrequester ▸ hcheck amount)
            (by rw [hopen]; rintro rfl; exact hroom rfl) (by rw [hopen']; rintro rfl; exact hroom' rfl) with
          ⟨err, heq, heq'⟩ | ⟨r, c, c', n, n', heq, heq', hledger⟩
        · obtain ⟨rfl, rfl⟩ := Prod.mk.inj (hopen.symm.trans heq)
          obtain ⟨rfl, rfl⟩ := Prod.mk.inj (hopen'.symm.trans heq')
          exact ⟨rfl, ⟨rfl, h.ledger, h.nextArrival⟩, rfl⟩
        · obtain ⟨rfl, rfl⟩ := Prod.mk.inj (hopen.symm.trans heq)
          obtain ⟨rfl, rfl⟩ := Prod.mk.inj (hopen'.symm.trans heq')
          exact h.done ⟨hledger, rfl⟩
      · simp only [hfull, Bool.not_false, if_true]
        exact h.refuse _

theorem Kindred.rejectRequest (h : Kindred e e') (r : ReqIdx) :
    Answer.Kindred (e.rejectRequest r now b) (e'.rejectRequest r now b) := by
  unfold Engine.rejectRequest
  have hy := h.ledger.request r
  generalize e.ledger.request r = y at hy
  generalize e'.ledger.request r = y' at hy
  cases hy with
  | none => exact h.refuse _
  | @some y y' hy =>
      have hstate : y.state = y'.state := congrArg (fun y => y.state) hy
      have hlegs : y.nLegs = y'.nLegs := congrArg (fun y => y.nLegs) hy
      dsimp only
      rw [h.config, hstate, hlegs]
      split
      · exact h.refuse _
      split
      · exact h.refuse _
      have hw := (h.start (b := b)).rejectLegs r y'.nLegs now
      have hreleased : Ledger.Kindred ((Engine.rejectLegs (e.ledger, b) r y'.nLegs now).1.releaseIfHeld y.claim)
          ((Engine.rejectLegs (e'.ledger, b) r y'.nLegs now).1.releaseIfHeld y'.claim) :=
        hw.ledger.both (fun h => h.releaseIfHeld _) fun h => h.releaseIfHeld _
      exact h.done ⟨hreleased.modifyRequest r (by exact fun _ => rfl), hw.events⟩

-- ============================================================================
-- Quotes
-- ============================================================================

theorem Kindred.checkQuote (h : Kindred e e') (maker : Nat) (r : ReqIdx) (i price size expiresAt : Nat) :
    e.checkQuote maker r i price size expiresAt now b = e'.checkQuote maker r i price size expiresAt now b := by
  unfold Engine.checkQuote
  have hy := h.ledger.request r
  generalize e.ledger.request r = y at hy
  generalize e'.ledger.request r = y' at hy
  cases hy with
  | none => rfl
  | @some y y' hy =>
      have hstate : y.state = y'.state := congrArg (fun y => y.state) hy
      have hdeadline : y.deadline = y'.deadline := congrArg (fun y => y.deadline) hy
      have hleg : y.leg i = y'.leg i := congrArg (fun y => y.leg i) hy
      have hreplacement : ∀ leg standing, e.checkReplacement leg standing price =
          e'.checkReplacement leg standing price := by
        intro leg standing
        cases standing with
        | none => simp only [checkReplacement, h.config]
        | some q =>
            have hx := h.ledger.quote q
            simp only [checkReplacement]
            generalize e.ledger.quote q = x at hx
            generalize e'.ledger.quote q = x' at hx
            cases hx with
            | none => rfl
            | @some x x' hx =>
                have hprice : x.price = x'.price := (congrArg Quote.price hx : (x.setClaim none).price = _)
                dsimp only
                rw [hprice]
      dsimp only
      simp only [hstate, hdeadline, hleg, h.config, h.ledger.standingQuoteOf, hreplacement]

theorem Kindred.submitQuote (h : Kindred e e') {maker i price size expiresAt : Nat}
    (hcheck : ∀ standing amount, e.checkQuote maker r i price size expiresAt now b = .ok (standing, amount) →
      (withdrawStanding (e.ledger, b) maker r i standing).1.checkReservable maker amount =
        (withdrawStanding (e'.ledger, b) maker r i standing).1.checkReservable maker amount)
    (hroom : (e.submitQuote maker r i price size expiresAt now b).1 ≠
      .error (.ledger (.slabExhausted .reservation)))
    (hroom' : (e'.submitQuote maker r i price size expiresAt now b).1 ≠
      .error (.ledger (.slabExhausted .reservation))) :
    Answer.Kindred (e.submitQuote maker r i price size expiresAt now b)
      (e'.submitQuote maker r i price size expiresAt now b) := by
  unfold Engine.submitQuote at hroom hroom' ⊢
  rw [← h.checkQuote] at hroom' ⊢
  cases hchecked : e.checkQuote maker r i price size expiresAt now b with
  | error err => exact h.refuse _
  | ok checked =>
      obtain ⟨standing, amount⟩ := checked
      have hcheck := hcheck standing amount hchecked
      have hw := (h.start (b := b)).withdrawStanding maker r i standing
      simp only [hchecked, ← h.nextArrival] at hroom hroom' ⊢
      generalize withdrawStanding (e.ledger, b) maker r i standing = w at hcheck hw hroom ⊢
      generalize withdrawStanding (e'.ledger, b) maker r i standing = w' at hcheck hw hroom' ⊢
      generalize hrecord : Quote.new maker r i price size expiresAt e.nextArrival = record at hroom hroom' ⊢
      have hmaker : record.maker = maker := by rw [← hrecord]; rfl
      have hengine : ∀ {m m' : Ledger}, Ledger.Kindred m m' →
          Kindred { e with ledger := m, nextArrival := min (e.nextArrival + 1) u64Max }
            { e' with ledger := m', nextArrival := min (e.nextArrival + 1) u64Max } :=
        fun hm => ⟨h.config, hm, rfl⟩
      rcases hopen : w.1.openQuoteReserving record amount with ⟨x, m⟩
      rcases hopen' : w'.1.openQuoteReserving record amount with ⟨x', m'⟩
      rw [hopen] at hroom
      rw [hopen'] at hroom'
      rcases hw.ledger.openQuoteReserving record amount (hmaker ▸ hcheck)
          (by rw [hopen]; rintro rfl; exact hroom rfl) (by rw [hopen']; rintro rfl; exact hroom' rfl) with
        ⟨err, heq, heq'⟩ | ⟨q, c, c', n, n', heq, heq', hledger⟩
      · obtain ⟨rfl, rfl⟩ := Prod.mk.inj (hopen.symm.trans heq)
        obtain ⟨rfl, rfl⟩ := Prod.mk.inj (hopen'.symm.trans heq')
        dsimp only
        rw [hw.events]
        exact (hengine hw.ledger).refuse _
      · obtain ⟨rfl, rfl⟩ := Prod.mk.inj (hopen.symm.trans heq)
        obtain ⟨rfl, rfl⟩ := Prod.mk.inj (hopen'.symm.trans heq')
        have hlinked : Work.Kindred (m.linkQuote r i q, w.2) (m'.linkQuote r i q, w'.2) :=
          ⟨hledger.linkQuote r i q, hw.events⟩
        have hpublished := hlinked.publishSelection r i now
        exact ⟨rfl, ⟨h.config, hpublished.ledger, rfl⟩, hpublished.events⟩

-- ============================================================================
-- Accepts
-- ============================================================================

theorem Kindred.planAccept (h : Kindred e e') (legs : List Leg) (index total : Nat) (expected : List ExpectedFill)
    (plan : List Selection) :
    e.planAccept now index legs expected plan total = e'.planAccept now index legs expected plan total := by
  induction legs generalizing index total expected plan with
  | nil => rfl
  | cons x legs ih => simp only [Engine.planAccept, h.ledger.bestOnLeg, ih]

theorem Kindred.buildIntent {l l' : Ledger} (h : Ledger.Kindred l l') (legs : List Leg) (plan : List Selection) :
    Engine.buildIntent l legs plan = Engine.buildIntent l' legs plan := by
  induction legs generalizing plan with
  | nil => rfl
  | cons x legs ih =>
      cases plan with
      | nil => rfl
      | cons winner plan =>
          have hx := h.quote winner.quote
          simp only [Engine.buildIntent, ih]
          generalize l.quote winner.quote = x at hx
          generalize l'.quote winner.quote = x' at hx
          cases hx with
          | none => rfl
          | @some x x' hx =>
              have hmaker : x.maker = x'.maker := (congrArg Quote.maker hx : (x.setClaim none).maker = _)
              have hexpires : x.expiresAt = x'.expiresAt :=
                (congrArg Quote.expiresAt hx : (x.setClaim none).expiresAt = _)
              dsimp only
              rw [hmaker, hexpires]

/-- Two acceptances of one plan. -/
structure Acceptance.Kindred (acc acc' : Acceptance) : Prop where
  record : acc.record.bare = acc'.record.bare
  plan : acc.plan = acc'.plan
  total : acc.total = acc'.total
  intent : acc.intent = acc'.intent

/-- The claim of a live request covers its plan in both, so neither is refused for want
    of one. -/
theorem Kindred.checkAccept (h : Kindred e e') (hs : e.Sane) (hs' : e'.Sane) (hb : e.market.Backed now)
    (hb' : e'.market.Backed now)
    (hsize : ∀ y, e.ledger.request r = some y → y.state = .opened → ∀ leg ∈ y.legs,
      e.ledger.bestOnLeg leg now ≠ .error .sizeTooSmall) :
    (∃ err, e.checkAccept r expected now b = .error err ∧ e'.checkAccept r expected now b = .error err) ∨
    ∃ acc acc', e.checkAccept r expected now b = .ok acc ∧ e'.checkAccept r expected now b = .ok acc' ∧
      acc.Kindred acc' := by
  unfold Engine.checkAccept
  have hrel := h.ledger.request r
  cases hy : e.ledger.request r with
  | none =>
      rw [hy] at hrel
      generalize e'.ledger.request r = y' at hrel
      cases hrel
      exact .inl ⟨_, rfl, rfl⟩
  | some y =>
      rw [hy] at hrel
      cases hy' : e'.ledger.request r with
      | none =>
          rw [hy'] at hrel
          cases hrel
      | some y' =>
      rw [hy'] at hrel
      cases hrel with
      | some hbare =>
      have hstate : y.state = y'.state := congrArg (fun y => y.state) hbare
      have hdeadline : y.deadline = y'.deadline := congrArg (fun y => y.deadline) hbare
      have hlegs : y.legs = y'.legs := congrArg (fun y => y.legs) hbare
      have hcount : y.nLegs = y'.nLegs := congrArg (fun y => y.nLegs) hbare
      dsimp only
      rw [← hstate, ← hdeadline, ← hlegs, ← hcount, ← h.config, ← h.planAccept]
      by_cases hopened : y.state = .opened
      · by_cases hpassed : y.deadline ≤ now
        · simp only [hopened, hpassed, ne_eq, not_true_eq_false, if_true, if_false]
          exact .inl ⟨_, rfl, rfl⟩
        by_cases hlen : expected.length = y.nLegs
        · simp only [hopened, hpassed, hlen, ne_eq, not_true_eq_false, if_false]
          rcases planAccept_bounded e now 0 0 y.legs expected [] (by simpa using hs.budget_le hy)
              (fun leg hleg sel hsel => hs.price_le_limit hy hopened hleg hsel) (hsize y hy hopened) with
            ⟨err, heq, -⟩ | ⟨plan, total, heq, htotal⟩
          · rw [heq]
            exact .inl ⟨_, rfl, rfl⟩
          rw [heq]
          have hopened' : y'.state = .opened := hstate.symm.trans hopened
          obtain ⟨c, hclaim⟩ := hs.claim_of_opened hb hy hopened (by omega)
          obtain ⟨v, hv, hamount⟩ := hs.claim_covers hy hopened hclaim
          obtain ⟨c', hclaim'⟩ := hs'.claim_of_opened hb' hy' hopened' (by omega)
          obtain ⟨v', hv', hamount'⟩ := hs'.claim_covers hy' hopened' hclaim'
          rw [← hlegs] at hamount'
          simp only [hclaim, hclaim', hv, hv']
          have hcovered : ¬ v.amount < total := by omega
          have hcovered' : ¬ v'.amount < total := by omega
          simp only [hcovered, hcovered', if_false]
          rw [Kindred.buildIntent h.ledger]
          split
          · exact .inl ⟨_, rfl, rfl⟩
          split
          · exact .inl ⟨_, rfl, rfl⟩
          · exact .inr ⟨_, _, rfl, rfl, hbare, rfl, rfl, rfl⟩
        · simp only [hopened, hpassed, hlen, ne_eq, not_true_eq_false, not_false_eq_true, if_true, if_false]
          exact .inl ⟨_, rfl, rfl⟩
      · simp only [hopened, ne_eq, not_false_eq_true, if_true]
        exact .inl ⟨_, rfl, rfl⟩

theorem Kindred.commitAccept (h : Kindred e e') {acc acc' : Acceptance} (hacc : acc.Kindred acc') :
    Work.Kindred (e.commitAccept r acc now b) (e'.commitAccept r acc' now b) := by
  have hrequester : acc.record.requester = acc'.record.requester :=
    congrArg (fun y => y.requester) hacc.record
  have hlegs : ∀ (plan : List Selection) (i : Nat) {w w' : Work}, Work.Kindred w w' →
      Work.Kindred (Engine.acceptLegs r now i plan w) (Engine.acceptLegs r now i plan w') := by
    intro plan
    induction plan with
    | nil => exact fun _ _ _ hw => hw
    | cons winner plan ih =>
        intro i w w' hw
        have hreleased := hw.releaseLeg r i (some winner) now .outbid
        exact ih (i + 1) ⟨hreleased.ledger.consumeWinner r winner, hreleased.events⟩
  have hw := hlegs acc'.plan 0 (h.start (b := b))
  unfold Engine.commitAccept
  dsimp only
  rw [hacc.plan, hacc.total, hacc.intent, hrequester, h.config, hw.events]
  have hcommitted := hw.ledger.both (fun h => h.commitCommit acc'.claim r acc'.total)
    fun h => h.commitCommit acc.claim r acc'.total
  exact ⟨hcommitted.modifyRequest r (by exact fun _ => rfl), rfl⟩

theorem Kindred.acceptRequest (h : Kindred e e') (hs : e.Sane) (hs' : e'.Sane) (hb : e.market.Backed now)
    (hb' : e'.market.Backed now)
    (hsize : ∀ y, e.ledger.request r = some y → y.state = .opened → ∀ leg ∈ y.legs,
      e.ledger.bestOnLeg leg now ≠ .error .sizeTooSmall) :
    Answer.Kindred (e.acceptRequest r expected now b) (e'.acceptRequest r expected now b) := by
  unfold Engine.acceptRequest
  rcases h.checkAccept hs hs' hb hb' hsize with ⟨err, heq, heq'⟩ | ⟨acc, acc', heq, heq', hacc⟩
  · rw [heq, heq']
    exact h.refuse err
  · rw [heq, heq']
    exact h.done (h.commitAccept hacc)

-- ============================================================================
-- Settlements
-- ============================================================================

open Ledger.CommitPhase (dischargeCommitted)

/-- A discharge takes the claims of the winners. -/
theorem Sane.discharged (hs : e.Sane) {y : Request} (hy : e.ledger.request r = some y)
    (hsettling : y.auction.IsSettling) {q : QuoteIdx} {x : Quote}
    (hx : (dischargeCommitted e.ledger r).2.quote q = some x) (hr : x.request = r)
    (hconsumed : x.state = .consumed) : x.claim = none := by
  obtain ⟨gone, hempties⟩ := hs.healthy.empties (Ledger.market_auctions hy) hsettling
  rw [hempties.quotes] at hx
  obtain ⟨x₀, hx₀, heq⟩ := Option.map_eq_some_iff.mp hx
  split at heq
  next => rw [← heq]; rfl
  next hkept =>
    subst heq
    cases hclaim : x₀.claim with
    | none => rfl
    | some c =>
        have howner : e.ledger.book.ownerClaim (.quote q) = some (some c) := by
          rw [Ledger.ownerClaim_book]
          simp [Ledger.ownerClaim, hx₀, hclaim]
        obtain ⟨k, hk, hkowner⟩ := hs.healthy.intact.balanced.holder _ _ howner
        obtain ⟨o, leg, ho, -, hbacks⟩ := hs.healthy.coherent.offered c k q hk hkowner
        obtain rfl := Option.some.inj ((Ledger.market_offers hx₀).symm.trans ho)
        obtain ⟨v, hv, rfl⟩ := Ledger.reservation_of_claims hk
        cases hstatus : v.toClaim.status with
        | reserved expiry =>
            have hactive := (hbacks.reserved expiry hstatus).1
            cases hactive.symm.trans hconsumed
        | committed r' =>
            obtain rfl : r' = r := (hbacks.committed r' hstatus).2.trans hr
            have hgone := (hempties.held c _).mpr ⟨v, hv, rfl, Reservation.committedTo_eq_some.mpr hstatus⟩
            exact absurd (List.mem_map.mpr ⟨_, hgone, hkowner⟩) hkept

theorem Kindred.settleRequest (h : Kindred e e') (hs : e.Sane) (hs' : e'.Sane) {y y' : Request}
    (hy : e.ledger.request r = some y) (hy' : e'.ledger.request r = some y') (hset : y.auction.IsSettling)
    (hset' : y'.auction.IsSettling) (nonce : Nonce) :
    Work.Kindred (e.settleRequest r nonce b) (e'.settleRequest r nonce b) := by
  have hdischarged : Ledger.Kindred (dischargeCommitted e.ledger r).2 (dischargeCommitted e'.ledger r).2 :=
    h.ledger.both (fun h => h.dischargeCommitted r) fun h => h.dischargeCommitted r
  have hwritten := hdischarged.modifyRequest r (f := fun y => y.setState .escrowed) fun _ => rfl
  exact ⟨hwritten.closeConsumedQuotes r (fun q x hx => hs.discharged hy hset hx)
    fun q x hx => hs'.discharged hy' hset' hx, rfl⟩

theorem Kindred.failRequest (h : Kindred e e') (hs : e.Sane) (hs' : e'.Sane) {y y' : Request}
    (hy : e.ledger.request r = some y) (hy' : e'.ledger.request r = some y') (hset : y.auction.IsSettling)
    (hset' : y'.auction.IsSettling) (hvisited : (dischargeCommitted e.ledger r).1 = (dischargeCommitted e'.ledger r).1)
    (nonce : Nonce) : Work.Kindred (e.failRequest r nonce b) (e'.failRequest r nonce b) := by
  have hdischarged : Ledger.Kindred (dischargeCommitted e.ledger r).2 (dischargeCommitted e'.ledger r).2 :=
    h.ledger.both (fun h => h.dischargeCommitted r) fun h => h.dischargeCommitted r
  have hclosed := hdischarged.closeConsumedQuotes r (fun q x hx => hs.discharged hy hset hx)
    fun q x hx => hs'.discharged hy' hset' hx
  unfold Engine.failRequest
  refine ⟨hclosed.modifyRequest r (by exact fun _ => rfl), ?_⟩
  dsimp only
  rw [hdischarged.notices hvisited]

theorem Kindred.pollSettlement (h : Kindred e e') (hs : e.Sane) (hs' : e'.Sane)
    (hvisited : ∀ r y, e.ledger.request r = some y → y.auction.IsSettling →
      (dischargeCommitted e.ledger r).1 = (dischargeCommitted e'.ledger r).1)
    (nonce : Nonce) (status : TxStatus) :
    Answer.Kindred (e.pollSettlement nonce status now b) (e'.pollSettlement nonce status now b) := by
  unfold Engine.pollSettlement
  rw [h.ledger.resolveNonce]
  split
  · exact h.refuse _
  next r _ =>
  have hrel := h.ledger.request r
  cases hy : e.ledger.request r with
  | none =>
      rw [hy] at hrel
      generalize e'.ledger.request r = y' at hrel
      cases hrel
      exact h.refuse _
  | some y =>
      cases hy' : e'.ledger.request r with
      | none =>
          rw [hy, hy'] at hrel
          cases hrel
      | some y' =>
      rw [hy, hy'] at hrel
      cases hrel with
      | some hbare =>
      have hstate : y.state = y'.state := congrArg (fun y => y.state) hbare
      have hlegs : y.nLegs = y'.nLegs := congrArg (fun y => y.nLegs) hbare
      dsimp only
      rw [← hstate, ← hlegs]
      split
      next nonce' deadline hsettling =>
        have hset : y.auction.IsSettling := ⟨_, _, hsettling⟩
        have hset' : y'.auction.IsSettling := ⟨_, _, hstate.symm.trans hsettling⟩
        split
        · exact h.refuse _
        cases status with
        | unknown =>
            dsimp only
            split
            · exact ⟨rfl, h, rfl⟩
            split
            · exact h.refuse _
            · exact ⟨rfl, h, rfl⟩
        | pending =>
            dsimp only
            split
            · exact ⟨rfl, h, rfl⟩
            split
            · exact h.refuse _
            · exact ⟨rfl, h, rfl⟩
        | settled =>
            dsimp only
            split
            · exact h.refuse _
            · exact h.done (h.settleRequest hs hs' hy hy' hset hset' _)
        | reverted =>
            dsimp only
            split
            · exact h.refuse _
            · exact h.done (h.failRequest hs hs' hy hy' hset hset' (hvisited r y hy hset) _)
      · exact h.refuse _

-- ============================================================================
-- Mirror and resolution
-- ============================================================================

theorem Kindred.reportOracleStatus (h : Kindred e e') (contract : Nat) (status : OracleStatus) :
    Answer.Kindred (e.reportOracleStatus contract status b) (e'.reportOracleStatus contract status b) := by
  unfold Engine.reportOracleStatus
  rw [h.ledger.contract]
  split
  · exact h.refuse _
  split
  · exact h.refuse _
  split
  · exact h.refuse _
  · refine h.done ⟨h.ledger.withContracts ?_, rfl⟩
    rw [h.ledger.contracts]

theorem Kindred.settleEscrow (h : Kindred e e') (escrow contract : Nat) :
    Answer.Kindred (e.settleEscrow escrow contract now b) (e'.settleEscrow escrow contract now b) := by
  unfold Engine.settleEscrow
  rw [h.ledger.contract, h.config]
  split
  · exact h.refuse _
  split
  · exact h.refuse _
  split
  · exact h.refuse _
  · exact ⟨rfl, h, rfl⟩

/-- What a command that opens no claim and discharges none comes to. -/
theorem Kindred.creditAccount (h : Kindred e e') (account free : Nat) :
    Answer.Kindred (e.perform (.creditAccount account free) now b)
      (e'.perform (.creditAccount account free) now b) := by
  simp only [Engine.perform, Ledger.applyMirrorUpdate]
  have hsome := h.ledger.isSome_account account
  cases hm : e.ledger.account account with
  | none =>
      cases hm' : e'.ledger.account account with
      | none => exact h.refuse _
      | some m' => simp [hm, hm'] at hsome
  | some m =>
      cases hm' : e'.ledger.account account with
      | none => simp [hm, hm'] at hsome
      | some m' => exact h.done ⟨h.ledger.mirror account free, rfl⟩

theorem Kindred.registerContract (h : Kindred e e') (contract eventDate : Nat) :
    Answer.Kindred (e.perform (.registerContract contract eventDate) now b)
      (e'.perform (.registerContract contract eventDate) now b) := by
  simp only [Engine.perform, Ledger.registerContract]
  rw [h.ledger.contracts]
  cases e'.ledger.contracts[contract]? with
  | none => exact h.refuse _
  | some entry =>
      cases entry with
      | none => exact h.done ⟨h.ledger.withContracts rfl, rfl⟩
      | some existing =>
          by_cases hsame : existing.eventDate = eventDate
          · simp only [hsame, if_true]
            exact h.done h.start
          · simp only [hsame, if_false]
            exact h.refuse _

end Engine

end RfqSettlement
