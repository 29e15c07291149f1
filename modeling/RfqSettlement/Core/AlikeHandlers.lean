/-
  RfqSettlement.Core.AlikeHandlers

  The command handlers on two engines alike to everyone but one account.

  A handler that consults nothing `a` keeps to itself has one answer, emits the same events
  and leaves the engines alike.  One that does, `a`'s own request, quote or accept, may be
  refused in one and admitted in the other; where it is admitted in both, or in neither,
  the same holds of it.  Only the presentation feed of `a`'s own requests may differ.
-/

import RfqSettlement.Core.AlikeQuotes
import RfqSettlement.Core.Inheritance

namespace RfqSettlement

variable {a : Nat}

-- ============================================================================
-- Works
-- ============================================================================

structure Work.Alike (a : Nat) (w w' : Work) : Prop where
  ledger : Ledger.Alike a w.1 w'.1
  events : w.2 = w'.2

namespace Work.Alike

variable {w w' : Work}

theorem releaseQuote (h : Work.Alike a w w') (r : ReqIdx) (i now : Nat) (reason : QuoteRejectReason)
    (q : QuoteIdx) : Work.Alike a (w.releaseQuote r i now reason q) (w'.releaseQuote r i now reason q) := by
  unfold Work.releaseQuote
  rw [h.ledger.quote, h.events]
  split
  · exact h
  · exact ⟨h.ledger.retireQuote r i q _, rfl⟩

theorem doomed {l l' : Ledger} (h : Ledger.Alike a l l') {x x' : Leg} (hhead : x.quotesHead = x'.quotesHead)
    (keep : Option Selection) : Work.doomed l x keep = Work.doomed l' x' keep := by
  rw [Work.doomed, Work.doomed, h.walkLeg hhead]

theorem releaseLeg (h : Work.Alike a w w') (r : ReqIdx) (i : Nat) (keep : Option Selection) (now : Nat)
    (reason : QuoteRejectReason) : Work.Alike a (w.releaseLeg r i keep now reason)
      (w'.releaseLeg r i keep now reason) := by
  unfold Work.releaseLeg
  rcases h.ledger.legOf r i with ⟨hx, hx'⟩ | ⟨y, x, x', -, hx, hx', halike⟩
  · rw [hx, hx']
    exact ⟨h.ledger.debugAssert, h.events⟩
  · rw [hx, hx']
    dsimp only
    rw [doomed h.ledger halike.quotesHead]
    exact Entrywise.foldl (fun _ _ q hw => hw.releaseQuote r i now reason q) _ h

theorem rejectLegs (h : Work.Alike a w w') (r : ReqIdx) (n now : Nat) :
    Work.Alike a (Engine.rejectLegs w r n now) (Engine.rejectLegs w' r n now) :=
  Entrywise.foldl (fun _ _ i hw => hw.releaseLeg r i none now .requestRejected) _ h

theorem withdrawStanding (h : Work.Alike a w w') (maker : Nat) (r : ReqIdx) (i : Nat)
    (standing : Option QuoteIdx) : Work.Alike a (Engine.withdrawStanding w maker r i standing)
      (Engine.withdrawStanding w' maker r i standing) := by
  cases standing with
  | none => exact h
  | some q =>
      unfold Engine.withdrawStanding
      dsimp only
      rw [h.ledger.quote, h.events]
      exact ⟨h.ledger.retireQuote r i q _, rfl⟩

/-- A winner's claim moves whole: what it keeps is what it held. -/
theorem consumeWinner {l l' : Ledger} (h : Ledger.Alike a l l') (r : ReqIdx) (winner : Selection) :
    Ledger.Alike a (Engine.consumeWinner l r winner) (Engine.consumeWinner l' r winner) := by
  unfold Engine.consumeWinner
  dsimp only
  rw [h.quote]
  cases hclaim : (l'.quote winner.quote).bind Quote.claim with
  | none => exact h.modifyQuote winner.quote _
  | some claim =>
      refine (h.modifyQuote winner.quote _).commitCommit claim r fun v hv hne => ?_
      have hv : l.reservation claim = some v := hv
      have halike := h.reservation claim
      simp only [Option.bind_some, hv] at halike ⊢
      generalize l'.reservation claim = v' at halike
      cases halike with
      | some halike => exact halike.amount hne

theorem acceptLeg (h : Work.Alike a w w') (r : ReqIdx) (i : Nat) (winner : Selection) (now : Nat) :
    Work.Alike a (Engine.acceptLeg w r i winner now) (Engine.acceptLeg w' r i winner now) := by
  have hreleased := h.releaseLeg r i (some winner) now .outbid
  exact ⟨consumeWinner hreleased.ledger r winner, hreleased.events⟩

theorem acceptLegs (h : Work.Alike a w w') (r : ReqIdx) (now i : Nat) (plan : List Selection) :
    Work.Alike a (Engine.acceptLegs r now i plan w) (Engine.acceptLegs r now i plan w') := by
  induction plan generalizing w w' i with
  | nil => exact h
  | cons winner plan ih => exact ih (h.acceptLeg r i winner now) (i + 1)

end Work.Alike

-- ============================================================================
-- The presentation feed
-- ============================================================================

/-- The events only the account `a` is shown: what is presented of its own requests. -/
def Ledger.confidential (a : Nat) (l : Ledger) : Event → Bool
  | .bestSelectionChanged r _ _ => decide ((l.request r).map Request.requester = some a)
  | _ => false

theorem Ledger.Alike.confidential {l l' : Ledger} (h : Ledger.Alike a l l') :
    l.confidential a = l'.confidential a := by
  funext event
  cases event with
  | bestSelectionChanged r i price =>
      have hrequester : (l.request r).map Request.requester = (l'.request r).map Request.requester :=
        Entrywise.map_eq (h.request r) fun _ _ hy => hy.requester
      rw [Ledger.confidential, Ledger.confidential, hrequester]
  | _ => rfl

theorem Ledger.modifyLeg_id (l : Ledger) (r : ReqIdx) (i : Nat) : l.modifyLeg r i id = l := by
  have hsame : (fun y : Request => y.modifyLeg i id) = id := by
    funext y
    simp [Request.modifyLeg]
  rw [Ledger.modifyLeg, hsame, Ledger.modifyRequest, Slab.modify_id]

/-- A publication writes what was presented last, and tells its requester. -/
theorem Work.publishSelection_writes (l : Ledger) (b : EventBuffer) (r : ReqIdx) (i now : Nat) :
    ∃ f : Leg → Leg, (Work.publishSelection (l, b) r i now).1 = l.modifyLeg r i f ∧
      (∀ x, f x = { x with published := (f x).published }) ∧
      ((Work.publishSelection (l, b) r i now).2 = b ∨
        ∃ price, (Work.publishSelection (l, b) r i now).2 = b.push (.bestSelectionChanged r i price)) := by
  have hsilent : ∃ f : Leg → Leg, l = l.modifyLeg r i f ∧ (∀ x, f x = { x with published := (f x).published }) ∧
      (b = b ∨ ∃ price, b = b.push (.bestSelectionChanged r i price)) :=
    ⟨id, (l.modifyLeg_id r i).symm, fun _ => rfl, .inl rfl⟩
  unfold Work.publishSelection
  split
  · exact hsilent
  split
  · exact hsilent
  next best _ =>
  split
  · exact hsilent
  · exact ⟨_, rfl, fun _ => rfl, .inr ⟨best.price, rfl⟩⟩

theorem EventBuffer.filter_push {p : Event → Bool} {event : Event} (b : EventBuffer) (hp : p event = false) :
    (b.push event).events.filter p = b.events.filter p := by
  unfold EventBuffer.push
  split
  · simp [hp]
  · rfl

/-- A publication looks the same to everyone but the requester it is for. -/
theorem Ledger.Alike.publishSelection {l l' : Ledger} (h : Ledger.Alike a l l') (b : EventBuffer) (r : ReqIdx)
    (i now : Nat) {shown : Event → Bool} (hshown : (l.request r).map Request.requester = some a →
      ∀ price, shown (.bestSelectionChanged r i price) = false) :
    Ledger.Alike a (Work.publishSelection (l, b) r i now).1 (Work.publishSelection (l', b) r i now).1 ∧
      (Work.publishSelection (l, b) r i now).2.events.filter shown =
        (Work.publishSelection (l', b) r i now).2.events.filter shown := by
  rcases h.legOf r i with ⟨hx, hx'⟩ | ⟨y, x, x', hy, hx, hx', halike⟩
  · unfold Work.publishSelection
    rw [hx, hx']
    exact ⟨h, rfl⟩
  by_cases hown : y.requester = a
  · obtain ⟨f, hledger, hf, hevents⟩ := Work.publishSelection_writes l b r i now
    obtain ⟨f', hledger', hf', hevents'⟩ := Work.publishSelection_writes l' b r i now
    have hfeed := hshown (by rw [hy, Option.map_some, hown])
    have hquiet : ∀ {b' : EventBuffer}, (b' = b ∨ ∃ price, b' = b.push (.bestSelectionChanged r i price)) →
        b'.events.filter shown = b.events.filter shown := by
      rintro b' (rfl | ⟨price, rfl⟩)
      · rfl
      · exact EventBuffer.filter_push b (hfeed price)
    refine ⟨?_, (hquiet hevents).trans (hquiet hevents').symm⟩
    rw [hledger, hledger']
    refine h.modifyOwn hy hown fun z z' hz => ?_
    rw [hf z, hf' z']
    exact ⟨hz.contract, hz.side, hz.size, hz.quotesHead, hz.quoteCount, fun hfalse => absurd trivial hfalse⟩
  · obtain rfl := halike.shown hown
    unfold Work.publishSelection
    rw [hx, hx']
    dsimp only
    rw [h.bestOnLeg]
    split
    · exact ⟨h, rfl⟩
    split
    · exact ⟨h, rfl⟩
    · refine ⟨h.modifyLeg r i fun own z z' hz => ?_, rfl⟩
      exact ⟨hz.contract, hz.side, hz.size, hz.quotesHead, hz.quoteCount, fun hother => by rw [hz.shown hother]⟩

-- ============================================================================
-- Engines and answers
-- ============================================================================

/-- A leg asked for at two limits. -/
structure LegSpec.Alike (own : Prop) (s s' : LegSpec) : Prop where
  contract : s.contract = s'.contract
  side : s.side = s'.side
  size : s.size = s'.size
  shown : ¬ own → s = s'

namespace Engine

structure Alike (a : Nat) (e e' : Engine) : Prop where
  config : e.config = e'.config
  ledger : Ledger.Alike a e.ledger e'.ledger
  nextArrival : e.nextArrival = e'.nextArrival

/-- Two answers of a command, `own` if it consults what `a` keeps to itself: the same answer
    and events, but for why it was refused and for what only `a` is shown. -/
structure Answer.Alike (a : Nat) (own : Prop) (shown : Event → Bool) (x x' : Answer) : Prop where
  answer : SameAnswer own x.1 x'.1
  engine : Engine.Alike a x.2.1 x'.2.1
  events : x.2.2.events.filter shown = x'.2.2.events.filter shown

variable {e e' : Engine} {own : Prop} {shown : Event → Bool} {b : EventBuffer} {r : ReqIdx} {now : Nat}

theorem Alike.refl (e : Engine) : Alike a e e := ⟨rfl, .refl _, rfl⟩

theorem Alike.withLedger {l l' : Ledger} (h : Alike a e e') (hl : Ledger.Alike a l l') :
    Alike a { e with ledger := l } { e' with ledger := l' } :=
  ⟨h.config, hl, h.nextArrival⟩

theorem Alike.refuse (h : Alike a e e') {err err' : EngineError} (herr : ¬ own → err = err') :
    Answer.Alike a own shown (e.refuse b err) (e'.refuse b err') :=
  ⟨.error herr, h, rfl⟩

theorem Alike.done (h : Alike a e e') {w w' : Work} (hw : Work.Alike a w w') :
    Answer.Alike a own shown (e.done w) (e'.done w') :=
  ⟨.ok (), h.withLedger hw.ledger, by rw [Engine.done, Engine.done, hw.events]⟩

-- ============================================================================
-- Requests
-- ============================================================================

theorem Alike.checkLegs (h : Alike a e e') (specs : List LegSpec) (total : Nat) :
    e.checkLegs now specs total = e'.checkLegs now specs total := by
  induction specs generalizing total with
  | nil => rfl
  | cons spec specs ih => simp only [Engine.checkLegs, h.ledger.contract, h.config, ih]

theorem specs_eq {specs specs' : List LegSpec} (h : List.Forall₂ (LegSpec.Alike own) specs specs')
    (hown : ¬ own) : specs = specs' :=
  List.forall₂_eq_eq_eq ▸ h.imp fun _ _ hs => hs.shown hown

theorem announced_eq {specs specs' : List LegSpec} (h : List.Forall₂ (LegSpec.Alike own) specs specs') :
    specs.map (fun s => (⟨s.contract, s.side, s.size⟩ : OpenLeg)) =
      specs'.map fun s => ⟨s.contract, s.side, s.size⟩ := by
  induction h with
  | nil => rfl
  | cons hs _ ih => rw [List.map_cons, List.map_cons, ih, hs.contract, hs.side, hs.size]

theorem record_alike {requester deadline : Nat} {specs specs' : List LegSpec}
    (h : List.Forall₂ (LegSpec.Alike (requester = a)) specs specs') :
    Request.Alike a
      (.new requester deadline (specs.map fun s => Leg.new s.contract s.side s.size s.limit))
      (.new requester deadline (specs'.map fun s => Leg.new s.contract s.side s.size s.limit)) := by
  have hlegs : List.Forall₂ (Leg.Alike (requester = a))
      (specs.map fun s => Leg.new s.contract s.side s.size s.limit)
      (specs'.map fun s => Leg.new s.contract s.side s.size s.limit) := by
    rw [List.forall₂_map_left_iff, List.forall₂_map_right_iff]
    refine h.imp fun s s' hs => ⟨hs.contract, hs.side, hs.size, rfl, rfl, fun hown => ?_⟩
    rw [hs.shown hown]
  exact ⟨rfl, rfl, rfl, rfl, rfl, hlegs⟩

/-- A request of another account: nothing about it is `a`'s. -/
theorem Alike.submitRequest_other (h : Alike a e e') (hs : e.Sane) (hs' : e'.Sane) {requester deadline : Nat}
    (hother : requester ≠ a) (specs : List LegSpec) :
    Answer.Alike a own shown (e.submitRequest requester deadline specs now b)
      (e'.submitRequest requester deadline specs now b) := by
  obtain ⟨config, l, arrival⟩ := e
  obtain ⟨config', l', arrival'⟩ := e'
  obtain rfl : config = config' := h.config
  obtain rfl : arrival = arrival' := h.nextArrival
  unfold Engine.submitRequest
  rw [h.checkLegs]
  split
  · exact h.refuse fun _ => rfl
  split
  · exact h.refuse fun _ => rfl
  split
  · exact h.refuse fun _ => rfl
  split
  · exact h.refuse fun _ => rfl
  split
  · exact h.refuse fun _ => rfl
  next total _ =>
  split
  · exact h.refuse fun _ => rfl
  dsimp only
  have hrecord : Request.Alike a
      (.new requester deadline (specs.map fun s => Leg.new s.contract s.side s.size s.limit))
      (.new requester deadline (specs.map fun s => Leg.new s.contract s.side s.size s.limit)) := .refl _
  obtain ⟨hanswer, hledger⟩ := h.ledger.openRequestReserving hs.healthy.intact hs'.healthy.intact hrecord rfl rfl
    (fun _ => rfl : requester ≠ a → total = total) fun hown => absurd hown hother
  generalize l.openRequestReserving _ total = x at hanswer hledger ⊢
  generalize l'.openRequestReserving _ total = x' at hanswer hledger ⊢
  obtain ⟨answer, l₁⟩ := x
  obtain ⟨answer', l₁'⟩ := x'
  obtain rfl : answer = answer' := hanswer.eq hother
  cases answer with
  | error err => exact (h.withLedger hledger).refuse fun _ => rfl
  | ok handles => exact h.done ⟨hledger, rfl⟩

theorem Alike.submitRequest (h : Alike a e e') (hs : e.Sane) (hs' : e'.Sane) {requester deadline : Nat}
    {specs specs' : List LegSpec} (hspecs : List.Forall₂ (LegSpec.Alike (requester = a)) specs specs')
    (hsame : requester = a → (e.submitRequest requester deadline specs now b).1.isOk =
      (e'.submitRequest requester deadline specs' now b).1.isOk) :
    Answer.Alike a (requester = a) shown (e.submitRequest requester deadline specs now b)
      (e'.submitRequest requester deadline specs' now b) := by
  by_cases hown : requester = a
  · have hsame := hsame hown
    have hcases : (∃ err, e.submitRequest requester deadline specs now b = e.refuse b err) ∨ _ :=
      hs.submitRequest_cases
    rcases hcases with ⟨err, heq⟩ | ⟨total, r, c, l, hopen, heq⟩
    · rcases hs'.submitRequest_cases with ⟨err', heq'⟩ | ⟨total', r', c', l', hopen', heq'⟩
      · rw [heq, heq']
        exact h.refuse fun hother => absurd hown hother
      · rw [heq, heq'] at hsame
        cases hsame
    · rcases hs'.submitRequest_cases with ⟨err', heq'⟩ | ⟨total', r', c', l', hopen', heq'⟩
      · rw [heq, heq'] at hsame
        cases hsame
      · obtain ⟨hanswer, hledger⟩ := h.ledger.openRequestReserving hs.healthy.intact hs'.healthy.intact
          (record_alike hspecs) rfl rfl (fun hother : requester ≠ a => absurd hown hother) fun _ => by
            rw [hopen, hopen']
            rfl
        rw [hopen, hopen'] at hanswer hledger
        cases hanswer
        rw [heq, heq', announced_eq hspecs]
        exact h.done ⟨hledger, rfl⟩
  · obtain rfl := specs_eq hspecs hown
    exact h.submitRequest_other hs hs' hown specs

theorem Alike.rejectRequest (h : Alike a e e') (r : ReqIdx) :
    Answer.Alike a own shown (e.rejectRequest r now b) (e'.rejectRequest r now b) := by
  unfold Engine.rejectRequest
  have hy := h.ledger.request r
  generalize e.ledger.request r = y at hy
  generalize e'.ledger.request r = y' at hy
  cases hy with
  | none => exact h.refuse fun _ => rfl
  | @some y y' hy =>
      dsimp only
      have hlegs : y.nLegs = y'.nLegs := hy.legs.length_eq
      rw [h.config, hy.state, hlegs, hy.claim]
      split
      · exact h.refuse fun _ => rfl
      split
      · exact h.refuse fun _ => rfl
      have hstart : Work.Alike a (e.ledger, b) (e'.ledger, b) := ⟨h.ledger, rfl⟩
      have hw := hstart.rejectLegs r y'.nLegs now
      exact h.done ⟨(hw.ledger.releaseIfHeld _).setState r .rejected, hw.events⟩

-- ============================================================================
-- Quotes
-- ============================================================================

/-- No admission check of a quote reads what `a` keeps to itself. -/
theorem Alike.checkQuote (h : Alike a e e') (maker : Nat) (r : ReqIdx) (i price size expiresAt : Nat) :
    e.checkQuote maker r i price size expiresAt now b = e'.checkQuote maker r i price size expiresAt now b := by
  unfold Engine.checkQuote
  have hy := h.ledger.request r
  generalize e.ledger.request r = y at hy
  generalize e'.ledger.request r = y' at hy
  cases hy with
  | none => rfl
  | @some y y' hy =>
      dsimp only
      rw [hy.state, hy.deadline, h.config]
      have hx := Entrywise.getElem? hy.legs i
      simp only [Request.leg]
      generalize y.legs[i]? = x at hx
      generalize y'.legs[i]? = x' at hx
      cases hx with
      | none => rfl
      | @some x x' hx =>
          have hreplacement : ∀ standing, e.checkReplacement x standing price =
              e'.checkReplacement x' standing price := by
            intro standing
            cases standing with
            | none => simp only [checkReplacement, h.config, hx.quoteCount]
            | some q => simp only [checkReplacement, h.ledger.quote]
          simp only [hx.size, h.ledger.standingQuoteOf hx.quotesHead, hreplacement]

/-- The requester a quote's publication is for is the one that stored the request. -/
theorem Sane.requester_submitQuote {maker i price size expiresAt arrival : Nat} {l : Ledger} {b' : EventBuffer}
    (hs : e.Sane) (heq : e.submitQuote maker r i price size expiresAt now b =
      Engine.done { e with nextArrival := arrival } (Work.publishSelection (l, b') r i now)) :
    (l.request r).map Request.requester = (e.ledger.request r).map Request.requester := by
  obtain ⟨f, hledger, -, -⟩ := Work.publishSelection_writes l b' r i now
  have hauctions : (l.modifyLeg r i f).market.auctions r = e.market.auctions r := by
    rw [← hledger]
    rcases hs.healthy.submitQuote (r := r) (i := i) rfl hs.config.quotesPerLeg with
      ⟨err, heq'⟩ | ⟨standing, contribution, y, leg, w₁, -, hw, hout⟩
    · cases congrArg Prod.fst (heq.symm.trans heq')
    · rcases hout with ⟨-, err, arrival', heq'⟩ | ⟨-, w', arrival', heq', -, -, -, hsame⟩
      · cases congrArg Prod.fst (heq.symm.trans heq')
      · have hfinal : (Work.publishSelection (l, b') r i now).1 = w'.1 :=
          congrArg (fun x : Answer => x.2.1.ledger) (heq.symm.trans heq')
        rw [hfinal]
        exact congrFun (hsame.trans hw.auctions) r
  have hrequest : (l.modifyLeg r i f).request r = (l.request r).map fun y => y.modifyLeg i f := by
    rw [Ledger.modifyLeg, Ledger.request_modifyRequest, if_pos rfl]
  have hstored : ∀ l : Ledger, (l.market.auctions r).map Auction.requester = (l.request r).map Request.requester := by
    intro l
    show ((((l.request r).map Request.unlinked).map Request.auction).map Auction.requester) = _
    rw [Option.map_map, Option.map_map]
    rfl
  have hsame : ((l.request r).map fun y => y.modifyLeg i f).map Request.requester =
      (l.request r).map Request.requester := by
    rw [Option.map_map]
    rfl
  rw [← hsame, ← hrequest, ← hstored, ← hstored, hauctions]
  rfl

section

variable {maker i price size expiresAt contribution : Nat} {standing : Option QuoteIdx} {l : Ledger}

/-- The handler past its checks, where the ledger refuses the quote. -/
theorem submitQuote_of_refused {err : LedgerError}
    (hcheck : e.checkQuote maker r i price size expiresAt now b = .ok (standing, contribution))
    (hopen : (withdrawStanding (e.ledger, b) maker r i standing).1.openQuoteReserving
      (Quote.new maker r i price size expiresAt e.nextArrival) contribution = (.error err, l)) :
    e.submitQuote maker r i price size expiresAt now b =
      Engine.refuse { e with ledger := l, nextArrival := min (e.nextArrival + 1) u64Max }
        (withdrawStanding (e.ledger, b) maker r i standing).2 (.ledger err) := by
  simp only [Engine.submitQuote, hcheck, hopen]

/-- Where the ledger opens it. -/
theorem submitQuote_of_opened {q : QuoteIdx} {c : ResIdx}
    (hcheck : e.checkQuote maker r i price size expiresAt now b = .ok (standing, contribution))
    (hopen : (withdrawStanding (e.ledger, b) maker r i standing).1.openQuoteReserving
      (Quote.new maker r i price size expiresAt e.nextArrival) contribution = (.ok (q, c), l)) :
    e.submitQuote maker r i price size expiresAt now b =
      Engine.done { e with nextArrival := min (e.nextArrival + 1) u64Max }
        (Work.publishSelection (l.linkQuote r i q, (withdrawStanding (e.ledger, b) maker r i standing).2)
          r i now) := by
  simp only [Engine.submitQuote, hcheck, hopen]

theorem isOk_submitQuote
    (hcheck : e.checkQuote maker r i price size expiresAt now b = .ok (standing, contribution)) :
    (e.submitQuote maker r i price size expiresAt now b).1.isOk =
      ((withdrawStanding (e.ledger, b) maker r i standing).1.openQuoteReserving
        (Quote.new maker r i price size expiresAt e.nextArrival) contribution).1.isOk := by
  rcases hopen : (withdrawStanding (e.ledger, b) maker r i standing).1.openQuoteReserving
    (Quote.new maker r i price size expiresAt e.nextArrival) contribution with ⟨answer, l⟩
  cases answer with
  | error err =>
      rw [submitQuote_of_refused hcheck hopen]
      rfl
  | ok handles =>
      rw [submitQuote_of_opened hcheck hopen]
      rfl

end

/-- A quote: only whether `a` can afford its own may differ. -/
theorem Alike.submitQuote (h : Alike a e e') (hs : e.Sane) (hs' : e'.Sane) {maker i price size expiresAt : Nat}
    (hshown : ∀ event, e.ledger.confidential a event = true → shown event = false)
    (hsame : maker = a → (e.submitQuote maker r i price size expiresAt now b).1.isOk =
      (e'.submitQuote maker r i price size expiresAt now b).1.isOk) :
    Answer.Alike a (maker = a) shown (e.submitQuote maker r i price size expiresAt now b)
      (e'.submitQuote maker r i price size expiresAt now b) := by
  cases hcheck' : e'.checkQuote maker r i price size expiresAt now b with
  | error err =>
      have hcheck := (h.checkQuote maker r i price size expiresAt).trans hcheck'
      unfold Engine.submitQuote
      rw [hcheck, hcheck']
      exact h.refuse fun _ => rfl
  | ok checked =>
      obtain ⟨standing, contribution⟩ := checked
      have hcheck := (h.checkQuote maker r i price size expiresAt).trans hcheck'
      obtain ⟨y, leg, hc⟩ := Ledger.checkQuote_ok hcheck
      obtain ⟨y', leg', hc'⟩ := Ledger.checkQuote_ok hcheck'
      have hw := hs.healthy.withdrawStanding rfl hc
      have hw' := hs'.healthy.withdrawStanding rfl hc'
      have hstart : Work.Alike a (e.ledger, b) (e'.ledger, b) := ⟨h.ledger, rfl⟩
      have hwork := hstart.withdrawStanding maker r i standing
      have hrecord : (Quote.new maker r i price size expiresAt e.nextArrival).claim = none := rfl
      obtain ⟨hanswer, hledger⟩ := hwork.ledger.openQuoteReserving hw.carried.healthy.intact
        hw'.carried.healthy.intact hrecord contribution fun hown => by
          have hok := hsame hown
          rwa [isOk_submitQuote hcheck, isOk_submitQuote hcheck', ← h.nextArrival] at hok
      rcases hopen : (withdrawStanding (e.ledger, b) maker r i standing).1.openQuoteReserving
        (Quote.new maker r i price size expiresAt e.nextArrival) contribution with ⟨answer, l⟩
      rcases hopen' : (withdrawStanding (e'.ledger, b) maker r i standing).1.openQuoteReserving
        (Quote.new maker r i price size expiresAt e.nextArrival) contribution with ⟨answer', l'⟩
      rw [hopen, hopen'] at hanswer hledger
      have harrival : min (e.nextArrival + 1) u64Max = min (e'.nextArrival + 1) u64Max := by rw [h.nextArrival]
      rw [h.nextArrival] at hopen'
      cases hanswer with
      | @error err err' herr =>
          rw [submitQuote_of_refused hcheck hopen, submitQuote_of_refused hcheck' hopen', hwork.events]
          exact ⟨.error fun hother => by rw [herr hother], ⟨h.config, hledger, harrival⟩, rfl⟩
      | ok handles =>
          obtain ⟨q, c⟩ := handles
          have heq := submitQuote_of_opened hcheck hopen
          have hrequester := hs.requester_submitQuote heq
          have hlinked := hledger.linkQuote r i q
          obtain ⟨hfinal, hevents⟩ := hlinked.publishSelection
            (withdrawStanding (e.ledger, b) maker r i standing).2 r i now fun hown price =>
              hshown (.bestSelectionChanged r i price) (by simp [Ledger.confidential, ← hrequester, hown])
          rw [heq, submitQuote_of_opened hcheck' hopen', ← hwork.events]
          exact ⟨.ok (), ⟨h.config, hfinal, harrival⟩, hevents⟩

end Engine

end RfqSettlement
