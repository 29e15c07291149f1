/-
  RfqSettlement.Core.Inheritance

  What the ledger never rewrites.  A stored quote keeps its terms and its arrival
  for as long as it is stored, and only `publish_selection` writes what a leg has
  published.  `Ledger.Inherits` says both of the ledger an operation leaves
  behind; releasing expired claims leaves even more (`Ledger.SameRecords`), so a
  leg's chain and its best quote are the same before and after it.
-/

import RfqSettlement.Core.Reports

namespace RfqSettlement

/-- A quote without what changes while it is stored. -/
def Quote.terms (q : Quote) : Quote := { q with state := .active, nextOnLeg := none, claim := none }

/-- A request without its claims. -/
def Request.bare (r : Request) : Request := { r with claim := none, committedHead := none }

/-- What the legs have published. -/
def Request.published (r : Request) : List (Option Nat) := r.legs.map Leg.published

theorem Request.published_modifyLeg {r : Request} {leg : Nat} {f : Leg → Leg}
    (hf : ∀ x, (f x).published = x.published) : (r.modifyLeg leg f).published = r.published := by
  refine List.ext_getElem? fun i => ?_
  simp only [Request.published, Request.modifyLeg, List.getElem?_map, List.getElem?_modify]
  cases r.legs[i]? with
  | none => rfl
  | some x =>
      simp only [Option.map_eq_map, Option.map_some, Option.some.injEq]
      split
      · exact hf x
      · rfl

namespace Ledger

/-- Every record of `l'` was in `l`: a quote on the same terms, a request with the
    same publications. -/
structure Inherits (l l' : Ledger) : Prop where
  quotes : ∀ q x', l'.quote q = some x' → ∃ x, l.quote q = some x ∧ x'.terms = x.terms
  published : ∀ r y', l'.request r = some y' →
    ∃ y, l.request r = some y ∧ y'.published = y.published

variable {l l' l'' : Ledger} {q : QuoteIdx} {r : ReqIdx} {i : Nat} {owner : ResOwner}
  {claim : Option ResIdx} {c : ResIdx} {w : Work} {now : Nat}

theorem Inherits.of_eq (hquotes : l'.quotes = l.quotes) (hrequests : l'.requests = l.requests) :
    Inherits l l' where
  quotes q x' hx := ⟨x', by rw [← hx, quote, quote, hquotes], rfl⟩
  published r y' hy := ⟨y', by rw [← hy, request, request, hrequests], rfl⟩

theorem Inherits.refl (l : Ledger) : Inherits l l := .of_eq rfl rfl

theorem Inherits.trans (h : Inherits l l') (h' : Inherits l' l'') : Inherits l l'' where
  quotes q x' hx' := by
    obtain ⟨x₁, hx₁, hsame'⟩ := h'.quotes q x' hx'
    obtain ⟨x, hx, hsame⟩ := h.quotes q x₁ hx₁
    exact ⟨x, hx, hsame'.trans hsame⟩
  published r y' hy' := by
    obtain ⟨y₁, hy₁, hsame'⟩ := h'.published r y' hy'
    obtain ⟨y, hy, hsame⟩ := h.published r y₁ hy₁
    exact ⟨y, hy, hsame'.trans hsame⟩

-- ============================================================================
-- The writes
-- ============================================================================

/-- A run of writes to the quotes and the requests, none of which opens one, changes a
    quote's terms or publishes. -/
inductive Writes : Ledger → Ledger → Prop where
  | same {l l' : Ledger} (hquotes : l'.quotes = l.quotes) (hrequests : l'.requests = l.requests) :
      Writes l l'
  | quote {l : Ledger} (q : QuoteIdx) (f : Quote → Quote) (hf : ∀ x, (f x).terms = x.terms) :
      Writes l (l.modifyQuote q f)
  | request {l : Ledger} (r : ReqIdx) (f : Request → Request)
      (hf : ∀ y, (f y).published = y.published) : Writes l (l.modifyRequest r f)
  | remove {l : Ledger} (q : QuoteIdx) : Writes l { l with quotes := (l.quotes.remove q).2 }
  | trans {l l' l'' : Ledger} (h : Writes l l') (h' : Writes l' l'') : Writes l l''

theorem Writes.refl (l : Ledger) : Writes l l := .same rfl rfl

theorem Writes.inherits (h : Writes l l') : Inherits l l' := by
  induction h with
  | same hquotes hrequests => exact .of_eq hquotes hrequests
  | quote q f hf =>
      refine ⟨fun q' x' hx' => ?_, fun r y' hy => ⟨y', hy, rfl⟩⟩
      rw [quote_modifyQuote] at hx'
      split at hx'
      next heq =>
        obtain ⟨x, hx, rfl⟩ := Option.map_eq_some_iff.mp hx'
        exact ⟨x, heq ▸ hx, hf x⟩
      next => exact ⟨x', hx', rfl⟩
  | request r f hf =>
      refine ⟨fun q x' hx => ⟨x', hx, rfl⟩, fun r' y' hy' => ?_⟩
      rw [request_modifyRequest] at hy'
      split at hy'
      next heq =>
        obtain ⟨y, hy, rfl⟩ := Option.map_eq_some_iff.mp hy'
        exact ⟨y, heq ▸ hy, hf y⟩
      next => exact ⟨y', hy', rfl⟩
  | @remove l q =>
      refine ⟨fun q' x' hx' => ⟨x', ?_, rfl⟩, fun r y' hy => ⟨y', hy, rfl⟩⟩
      cases hq : l.quotes.get q with
      | none =>
          have hsame := Slab.remove_of_stale hq
          rw [Ledger.quote, hsame] at hx'
          exact hx'
      | some x =>
          have hget : (l.quotes.remove q).2.get q' = if q' = q then none else l.quotes.get q' :=
            Slab.get_remove (by simp [hq])
          rw [Ledger.quote, hget] at hx'
          split at hx'
          · cases hx'
          · exact hx'
  | trans _ _ ih ih' => exact ih.trans ih'

theorem ages_remove (hvalid : l.quotes.Valid) : l.quotes.Ages (l.quotes.remove q).2 := by
  refine ⟨hvalid.remove, fun _ hspent => hspent.remove hvalid, fun q' x hx => ?_⟩
  cases hq : l.quotes.get q with
  | none => exact .inl ⟨x, by rw [Slab.remove_of_stale hq]; exact hx⟩
  | some x' =>
      have hget : (l.quotes.remove q).2.get q' = if q' = q then none else l.quotes.get q' :=
        Slab.get_remove (by simp [hq])
      by_cases heq : q' = q
      · subst heq
        exact .inr (hvalid.spent_remove hq)
      · rw [if_neg heq] at hget
        exact .inl ⟨x, hget.trans hx⟩

theorem ages_modifyQuote {f : Quote → Quote} (hvalid : l.quotes.Valid) :
    l.quotes.Ages (l.modifyQuote q f).quotes := by
  refine ⟨hvalid.modify, fun _ hspent => hspent.modify, fun q' x hx => .inl ?_⟩
  have hmodify := quote_modifyQuote (l := l) (q := q) (f := f) q'
  by_cases heq : q' = q
  · subst heq
    exact ⟨f x, by rw [← Ledger.quote, hmodify, if_pos rfl, Ledger.quote, hx]; rfl⟩
  · exact ⟨x, by rw [← Ledger.quote, hmodify, if_neg heq]; exact hx⟩

/-- No handle comes back. -/
theorem Writes.ages (h : Writes l l') (hvalid : l.quotes.Valid) : l.quotes.Ages l'.quotes := by
  induction h with
  | same hquotes _ => rw [hquotes]; exact .refl hvalid
  | quote q f _ => exact ages_modifyQuote hvalid
  | request r f _ => exact .refl hvalid
  | remove q => exact ages_remove hvalid
  | trans _ _ ih ih' => exact (ih hvalid).trans (ih' (ih hvalid).valid)

theorem writes_modifyLeg {f : Leg → Leg} (hf : ∀ x, (f x).published = x.published) :
    Writes l (l.modifyLeg r i f) :=
  .request r _ fun _ => Request.published_modifyLeg hf

theorem writes_setOwnerClaim : Writes l (l.setOwnerClaim owner claim) := by
  cases owner with
  | quote q =>
      have hset : Writes l (l.modifyQuote q fun q => q.setClaim claim) :=
        .quote _ _ fun _ => rfl
      exact hset.trans (.same rfl rfl)
  | request r =>
      have hset : Writes l (l.modifyRequest r fun r => r.setClaim claim) :=
        .request _ _ fun _ => rfl
      exact hset.trans (.same rfl rfl)

theorem writes_unlinkFromChain {account index : Nat} :
    Writes l (l.unlinkFromChain account index) := by
  unfold unlinkFromChain
  split
  · exact .same rfl rfl
  next prev next _ => cases prev <;> cases next <;> exact .same rfl rfl

theorem writes_linkIntoCommittedList {index : Nat} :
    Writes l (l.linkIntoCommittedList r index) := by
  unfold linkIntoCommittedList
  dsimp only
  split
  · refine Writes.trans ?_ (Writes.request _ _ ?_)
    · exact .same rfl rfl
    · exact fun _ => rfl
  · refine Writes.trans ?_ (Writes.request _ _ ?_)
    · exact .same rfl rfl
    · exact fun _ => rfl

theorem writes_reclaim {account : Nat} {reservation : Reservation} :
    Writes l (l.reclaim account c reservation) := by
  have hlower : Writes l
      ((l.unlinkFromChain account c.index).lowerReserved account reservation.amount) :=
    writes_unlinkFromChain.trans (.same rfl rfl)
  exact (hlower.trans writes_setOwnerClaim).trans (.same rfl rfl)

theorem writes_release : Writes l (CommitPhase.release l c) := by
  unfold CommitPhase.release
  split
  · exact .same rfl rfl
  split
  · exact .same rfl rfl
  · exact writes_reclaim

theorem writes_releaseIfHeld : Writes l (l.releaseIfHeld claim) := by
  cases claim with
  | none => exact .refl l
  | some c => exact writes_release

theorem writes_commit {keep : Nat} : Writes l (CommitPhase.commit l c r keep) := by
  unfold CommitPhase.commit
  split
  · exact .same rfl rfl
  next reservation _ =>
  split
  · exact .same rfl rfl
  · dsimp only
    have hassert : Writes l (l.debugAssert (decide (keep ≤ reservation.amount))) := .same rfl rfl
    generalize l.debugAssert (decide (keep ≤ reservation.amount)) = l₁ at hassert ⊢
    have hchain : Writes l₁ (l₁.unlinkFromChain reservation.account c.index) :=
      writes_unlinkFromChain
    generalize l₁.unlinkFromChain reservation.account c.index = l₂ at hchain ⊢
    have hamount : Writes l₂ (l₂.modifyReservationAt c.index
        fun r => r.setAmount (min keep reservation.amount)) := .same rfl rfl
    generalize (l₂.modifyReservationAt c.index
      fun r => r.setAmount (min keep reservation.amount)) = l₃ at hamount ⊢
    have hlist : Writes l₃ (l₃.linkIntoCommittedList r c.index) := writes_linkIntoCommittedList
    exact (((hassert.trans hchain).trans hamount).trans hlist).trans (.same rfl rfl)

theorem writes_closeQuote : Writes l (CommitPhase.closeQuote l q) :=
  (Writes.remove q).trans (.same rfl rfl)

theorem writes_dischargeClaim {reservation : Reservation} :
    Writes l (CommitPhase.dischargeClaim l c reservation) := by
  have hlower : Writes l (l.lowerCommitted reservation.account reservation.amount) := .same rfl rfl
  exact (hlower.trans writes_setOwnerClaim).trans (.same rfl rfl)

theorem writes_dischargeFrom {fuel : Nat} {cursor : Link} {visited : List (ResOwner × Nat)} :
    Writes l (CommitPhase.dischargeFrom l fuel cursor visited).2 := by
  induction fuel generalizing l cursor visited with
  | zero => cases cursor <;> exact .same rfl rfl
  | succ fuel ih =>
      cases cursor with
      | none => exact .refl l
      | some index =>
          unfold CommitPhase.dischargeFrom
          split
          · exact .same rfl rfl
          split
          · exact .refl l
          · exact writes_dischargeClaim.trans ih

theorem writes_dischargeCommitted : Writes l (CommitPhase.dischargeCommitted l r).2 :=
  writes_dischargeFrom.trans (Writes.request _ _ fun _ => rfl)

theorem writes_releaseExpiredFrom {account fuel reclaimed : Nat} {cursor : Link} :
    Writes l (l.releaseExpiredFrom account now fuel cursor reclaimed).2 := by
  induction fuel generalizing l cursor reclaimed with
  | zero => cases cursor <;> exact .same rfl rfl
  | succ fuel ih =>
      cases cursor with
      | none => exact .refl l
      | some index =>
          unfold releaseExpiredFrom
          repeat' split
          all_goals first | exact .same rfl rfl | exact writes_reclaim.trans ih

theorem writes_releaseExpired {account : Nat} : Writes l (l.releaseExpired account now).2 := by
  unfold releaseExpired
  split
  · exact .refl l
  · exact writes_releaseExpiredFrom

-- ============================================================================
-- Taking quotes off their legs
-- ============================================================================

theorem writes_unlinkQuoteFrom {fuel : Nat} {cursor : Link} :
    Writes l (l.unlinkQuoteFrom r i q fuel cursor) := by
  induction fuel generalizing cursor with
  | zero => cases cursor <;> exact .refl l
  | succ fuel ih =>
      cases cursor with
      | none => exact .refl l
      | some index =>
          unfold unlinkQuoteFrom
          split
          · exact .refl l
          split
          · exact .refl l
          split
          · refine Writes.trans (Writes.quote _ _ ?_) (writes_modifyLeg ?_)
            · exact fun _ => rfl
            · exact fun _ => rfl
          · exact ih

theorem writes_unlinkQuote : Writes l (l.unlinkQuote r i q) := by
  unfold unlinkQuote
  split
  · exact .refl l
  split
  · exact writes_modifyLeg fun _ => rfl
  · exact writes_unlinkQuoteFrom

theorem writes_linkQuote : Writes l (l.linkQuote r i q) := by
  unfold linkQuote
  refine Writes.trans (Writes.quote _ _ ?_) (writes_modifyLeg ?_)
  · exact fun _ => rfl
  · exact fun _ => rfl

theorem writes_retireQuote : Writes l (l.retireQuote r i q claim) := by
  have hrelease : Writes l (l.releaseIfHeld claim) := writes_releaseIfHeld
  have hmark := hrelease.trans (Writes.quote q (fun q => q.setState .released) fun _ => rfl)
  exact (hmark.trans writes_unlinkQuote).trans writes_closeQuote

theorem writes_releaseQuote {reason : QuoteRejectReason} :
    Writes w.1 (w.releaseQuote r i now reason q).1 := by
  unfold Work.releaseQuote
  split
  · exact .refl _
  · exact writes_retireQuote

theorem writes_releaseLeg {keep : Option Selection} {reason : QuoteRejectReason} :
    Writes w.1 (w.releaseLeg r i keep now reason).1 := by
  unfold Work.releaseLeg
  split
  · exact .same rfl rfl
  next record hrecord =>
    generalize Work.doomed w.1 record keep = qs
    clear hrecord
    induction qs generalizing w with
    | nil => exact .refl _
    | cons q qs ih => exact writes_releaseQuote.trans ih

theorem writes_rejectLegs {n : Nat} : Writes w.1 (Engine.rejectLegs w r n now).1 := by
  unfold Engine.rejectLegs
  induction n with
  | zero => exact .refl _
  | succ n ih =>
      rw [List.range_succ, List.foldl_append, List.foldl_cons, List.foldl_nil]
      exact ih.trans writes_releaseLeg

theorem writes_withdrawStanding {maker : Nat} {standing : Option QuoteIdx} :
    Writes w.1 (Engine.withdrawStanding w maker r i standing).1 := by
  cases standing with
  | none => exact .refl _
  | some q => exact writes_retireQuote

theorem writes_consumeWinner {winner : Selection} :
    Writes l (Engine.consumeWinner l r winner) := by
  have hmark : Writes l (l.modifyQuote winner.quote fun q => q.setState .consumed) :=
    .quote _ _ fun _ => rfl
  unfold Engine.consumeWinner
  dsimp only
  split
  · exact hmark.trans writes_commit
  · exact hmark

theorem writes_acceptLegs {plan : List Selection} :
    Writes w.1 (Engine.acceptLegs r now i plan w).1 := by
  induction plan generalizing w i with
  | nil => exact .refl _
  | cons winner plan ih =>
      refine Writes.trans ?_ ih
      exact writes_releaseLeg.trans writes_consumeWinner

theorem writes_closeConsumedQuotes : Writes l (Engine.closeConsumedQuotes l r) := by
  unfold Engine.closeConsumedQuotes
  dsimp only
  generalize List.take MAX_LEGS _ = qs
  induction qs generalizing l with
  | nil => exact .refl l
  | cons q qs ih => exact writes_closeQuote.trans ih

-- ============================================================================
-- Opening
-- ============================================================================

theorem writes_linkIntoExpiryChain {account index expiresAt : Nat} :
    Writes l (l.linkIntoExpiryChain account index expiresAt) := by
  unfold linkIntoExpiryChain
  split
  · exact .same rfl rfl
  dsimp only
  split
  · unfold spliceAfter
    dsimp only
    split <;> exact .same rfl rfl
  · unfold spliceAtHead
    dsimp only
    split <;> exact .same rfl rfl

theorem writes_linkClaim {account expiresAt reserved : Nat} :
    Writes l (l.linkClaim account c expiresAt owner reserved) := by
  unfold linkClaim
  refine Writes.trans ?_ writes_setOwnerClaim
  exact writes_linkIntoExpiryChain.trans (.same rfl rfl)

/-- Opening a quote stores it, and nothing else. -/
theorem openQuoteReserving_writes {record : Quote} {amount : Nat}
    (h : l.openQuoteReserving record amount = (.ok (q, c), l')) :
    ∃ quotes, l.quotes.insert record = some (q, quotes) ∧ Writes { l with quotes } l' := by
  unfold openQuoteReserving at h
  split at h
  · cases h
  split at h
  · cases h
  split at h
  · cases h
  split at h
  · cases h
  next hins =>
  dsimp only at h
  split at h
  · cases h
  · cases h
    refine ⟨_, hins, Writes.trans ?_ writes_linkClaim⟩
    exact .same rfl rfl

/-- Opening a request stores it, and nothing else. -/
theorem openRequestReserving_writes {record : Request} {amount : Nat}
    (h : l.openRequestReserving record amount = (.ok (r, c), l')) :
    ∃ requests, l.requests.insert record = some (r, requests) ∧ Writes { l with requests } l' := by
  unfold openRequestReserving at h
  split at h
  · cases h
  split at h
  · cases h
  split at h
  · cases h
  split at h
  · cases h
  next hins =>
  dsimp only at h
  split at h
  · cases h
  · cases h
    refine ⟨_, hins, Writes.trans ?_ writes_linkClaim⟩
    exact .same rfl rfl

-- ============================================================================
-- Releasing expired claims
-- ============================================================================

/-- `l'` has the records of `l`, whatever their claims. -/
structure SameRecords (l l' : Ledger) : Prop where
  quotes : ∀ q, (l'.quote q).map (Quote.setClaim · none) = (l.quote q).map (Quote.setClaim · none)
  requests : ∀ r, (l'.request r).map Request.bare = (l.request r).map Request.bare
  capacity : l'.quotes.capacity = l.quotes.capacity

theorem SameRecords.refl (l : Ledger) : SameRecords l l := ⟨fun _ => rfl, fun _ => rfl, rfl⟩

theorem SameRecords.trans (h : SameRecords l l') (h' : SameRecords l' l'') : SameRecords l l'' :=
  ⟨fun q => (h'.quotes q).trans (h.quotes q), fun r => (h'.requests r).trans (h.requests r),
    h'.capacity.trans h.capacity⟩

theorem SameRecords.quote {x' : Quote} (h : SameRecords l l') (hx' : l'.quote q = some x') :
    ∃ x, l.quote q = some x ∧ x'.setClaim none = x.setClaim none := by
  have hq := h.quotes q
  rw [hx', Option.map_some, eq_comm] at hq
  obtain ⟨x, hx, hsame⟩ := Option.map_eq_some_iff.mp hq
  exact ⟨x, hx, hsame.symm⟩

theorem SameRecords.request {y' : Request} (h : SameRecords l l') (hy' : l'.request r = some y') :
    ∃ y, l.request r = some y ∧ y'.bare = y.bare := by
  have hr := h.requests r
  rw [hy', Option.map_some, eq_comm] at hr
  obtain ⟨y, hy, hsame⟩ := Option.map_eq_some_iff.mp hr
  exact ⟨y, hy, hsame.symm⟩

theorem SameRecords.symm (h : SameRecords l l') : SameRecords l' l :=
  ⟨fun q => (h.quotes q).symm, fun r => (h.requests r).symm, h.capacity.symm⟩

theorem SameRecords.inherits (h : SameRecords l l') : Inherits l l' where
  quotes q x' hx' := by
    obtain ⟨x, hx, hsame⟩ := h.quote hx'
    have hterms : (x'.setClaim none).terms = (x.setClaim none).terms := by rw [hsame]
    exact ⟨x, hx, hterms⟩
  published r y' hy' := by
    obtain ⟨y, hy, hsame⟩ := h.request hy'
    have hlegs : y'.bare.legs = y.bare.legs := by rw [hsame]
    exact ⟨y, hy, congrArg (List.map Leg.published) hlegs⟩

theorem SameRecords.quoteHandleAt (h : SameRecords l l') (index : Nat) :
    l'.quoteHandleAt index = l.quoteHandleAt index := by
  have hsome : ∀ q, (l'.quotes.get q).isSome = (l.quotes.get q).isSome := fun q => by
    have := congrArg Option.isSome (h.quotes q)
    rwa [Option.isSome_map, Option.isSome_map] at this
  refine Option.ext fun q => ?_
  rw [Ledger.quoteHandleAt, Slab.handleAt_eq_some, hsome, ← Slab.handleAt_eq_some]
  rfl

/-- The walk meets the same quotes. -/
theorem SameRecords.walkFrom (h : SameRecords l l') (fuel : Nat) (cursor : Link) :
    (l'.walkFrom fuel cursor).map (fun v => (v.1, v.2.setClaim none)) =
      (l.walkFrom fuel cursor).map fun v => (v.1, v.2.setClaim none) := by
  induction fuel generalizing cursor with
  | zero => cases cursor <;> rfl
  | succ fuel ih =>
      cases cursor with
      | none => rfl
      | some index =>
          simp only [Ledger.walkFrom, h.quoteHandleAt]
          cases l.quoteHandleAt index with
          | none => rfl
          | some q =>
              have hq := h.quotes q
              cases hx' : l'.quote q with
              | none =>
                  rw [hx', Option.map_none, eq_comm, Option.map_eq_none_iff] at hq
                  simp only [hx', hq]
              | some x' =>
                  obtain ⟨x, hx, hsame⟩ := h.quote hx'
                  have hnext : x'.nextOnLeg = x.nextOnLeg := congrArg (fun q => q.nextOnLeg) hsame
                  simp only [hx', hx, List.map_cons, hsame, hnext, ih]

theorem foldl_visit {leg : Leg} {now : Nat} {s : Scan} (vs : List (QuoteIdx × Quote)) :
    vs.foldl (Scan.visit leg now) s =
      (vs.map fun v => (v.1, v.2.setClaim none)).foldl (Scan.visit leg now) s := by
  rw [List.foldl_map]
  rfl

/-- Whatever is reclaimed, the best quote of a leg stays the best. -/
theorem SameRecords.bestOnLeg (h : SameRecords l l') (leg : Leg) (now : Nat) :
    l'.bestOnLeg leg now = l.bestOnLeg leg now := by
  have hwalk : (l'.walkLeg leg).foldl (Scan.visit leg now) {} =
      (l.walkLeg leg).foldl (Scan.visit leg now) {} := by
    rw [foldl_visit, foldl_visit (l.walkLeg leg), walkLeg, walkLeg, h.capacity, h.walkFrom]
  simp only [Ledger.bestOnLeg, hwalk]

end Ledger

namespace Book

theorem Expired.records {b b' : Book} {account now : Nat} (h : Expired account now b b') :
    (∀ q, (b'.quotes q).map (Quote.setClaim · none) = (b.quotes q).map (Quote.setClaim · none)) ∧
      ∀ r, (b'.requests r).map Request.bare = (b.requests r).map Request.bare := by
  induction h with
  | refl => exact ⟨fun _ => rfl, fun _ => rfl⟩
  | @step b b' claim k e hk ha hs he rest ih =>
      obtain ⟨hquotes, hrequests⟩ := ih
      refine ⟨fun q => (hquotes q).trans ?_, fun r => (hrequests r).trans ?_⟩
      · cases hown : k.owner with
        | request r => simp only [free, hown]; rfl
        | quote q' =>
            simp only [free, hown, dropClaim, setOwnerClaim, modifyQuote, modifyTotals,
              Function.update_apply]
            split
            next heq => rw [heq, Option.map_map]; rfl
            next => rfl
      · cases hown : k.owner with
        | quote q => simp only [free, hown]; rfl
        | request r' =>
            simp only [free, hown, dropClaim, setOwnerClaim, modifyRequest, modifyTotals,
              Function.update_apply]
            split
            next heq => rw [heq, Option.map_map]; rfl
            next => rfl

end Book

namespace Ledger

theorem Swept.sameRecords {l l' : Ledger} {account now : Nat} (h : Swept account now l l') :
    SameRecords l l' := by
  obtain ⟨hquotes, hrequests⟩ := h.book.records
  refine ⟨hquotes, fun r => ?_, h.kept.quoteCapacity⟩
  have hr := hrequests r
  simp only [Ledger.book, Option.map_map] at hr
  exact hr

end Ledger

namespace Engine

variable {e : Engine} {now : Nat}

theorem Sane.sameRecords_normalise (h : e.Sane) (account : Nat) :
    Ledger.SameRecords e.ledger (e.normalise account now).ledger := by
  unfold Engine.normalise
  cases ha : e.ledger.account account with
  | none =>
      rw [Ledger.releaseExpired_error ha]
      exact .refl _
  | some m =>
      obtain ⟨-, hswept⟩ := h.healthy.intact.releaseExpired account now (by simp [ha])
      exact hswept.sameRecords

theorem Sane.sameRecords_normaliseAll (h : e.Sane) (accounts : List Nat) :
    Ledger.SameRecords e.ledger (e.normaliseAll accounts now).ledger := by
  unfold Engine.normaliseAll
  induction accounts generalizing e with
  | nil => exact .refl _
  | cons account accounts ih =>
      exact (h.sameRecords_normalise account).trans (ih (h.normalise now account).sane)

-- ============================================================================
-- Commands
-- ============================================================================

open Ledger (Inherits Writes QuoteChecked CanOpenQuote CanOpenRequest)

variable {events : EventBuffer} {command : Command} {maker i price size expiresAt : Nat} {r : ReqIdx}

/-- What a quote can come to, down to what its handler computes. -/
theorem Sane.submitQuote_cases (h : e.Sane) :
    (∃ err, e.submitQuote maker r i price size expiresAt now events = e.refuse events err) ∨
    ∃ standing contribution y leg w₁,
      QuoteChecked e maker r i price size expiresAt now events standing contribution y leg ∧
      w₁ = withdrawStanding (e.ledger, events) maker r i standing ∧
      ((∃ err, e.submitQuote maker r i price size expiresAt now events =
        Engine.refuse { e with ledger := w₁.1, nextArrival := min (e.nextArrival + 1) u64Max } w₁.2
          (.ledger err)) ∨
      ∃ q c l₂, w₁.1.openQuoteReserving (Quote.new maker r i price size expiresAt e.nextArrival)
          contribution = (.ok (q, c), l₂) ∧
        e.submitQuote maker r i price size expiresAt now events =
          Engine.done { e with nextArrival := min (e.nextArrival + 1) u64Max }
            (Work.publishSelection (l₂.linkQuote r i q, w₁.2) r i now)) := by
  unfold Engine.submitQuote
  split
  · exact .inl ⟨_, rfl⟩
  next standing contribution hcheck =>
  obtain ⟨y, leg, hc⟩ := Ledger.checkQuote_ok hcheck
  have hw := h.healthy.withdrawStanding rfl hc
  dsimp only
  refine .inr ⟨standing, contribution, y, leg, _, hc, rfl, ?_⟩
  generalize withdrawStanding (e.ledger, events) maker r i standing = w₁ at hw
  generalize hrecord : Quote.new maker r i price size expiresAt e.nextArrival = record
  have hfresh : record.claim = none := hrecord ▸ rfl
  by_cases hopen : CanOpenQuote w₁.1 record.maker contribution
  · obtain ⟨q, c, l₂, heq, -⟩ := hw.carried.healthy.intact.openQuoteReserving_ok hfresh hopen
    exact .inr ⟨q, c, l₂, heq, by rw [heq]⟩
  · obtain ⟨err, heq⟩ := Ledger.openQuoteReserving_error record contribution hopen
    exact .inl ⟨err, by rw [heq]⟩

/-- What a request can come to, likewise. -/
theorem Sane.submitRequest_cases {requester deadline : Nat} {specs : List LegSpec} (h : e.Sane) :
    (∃ err, e.submitRequest requester deadline specs now events = e.refuse events err) ∨
      ∃ total r c l₂, e.ledger.openRequestReserving (Request.new requester deadline
          (specs.map fun s => Leg.new s.contract s.side s.size s.limit)) total = (.ok (r, c), l₂) ∧
        e.submitRequest requester deadline specs now events =
          e.done (l₂, events.push (.requestOpened r deadline
            (specs.map fun s => ⟨s.contract, s.side, s.size⟩))) := by
  unfold Engine.submitRequest
  iterate 4
    split
    · exact .inl ⟨_, rfl⟩
  split
  · exact .inl ⟨_, rfl⟩
  next total _ =>
  split
  · exact .inl ⟨_, rfl⟩
  dsimp only
  generalize hrecord : Request.new requester deadline
    (specs.map fun s => Leg.new s.contract s.side s.size s.limit) = record
  have hfresh : record.claim = none ∧ record.committedHead = none := hrecord ▸ ⟨rfl, rfl⟩
  by_cases hopen : CanOpenRequest e.ledger record.requester total
  · obtain ⟨r, c, l₂, heq, -⟩ := h.healthy.intact.openRequestReserving_ok hfresh.1 hfresh.2 hopen
    exact .inr ⟨total, r, c, l₂, heq, by rw [heq]⟩
  · obtain ⟨err, heq⟩ := Ledger.openRequestReserving_error hopen
    exact .inl ⟨.ledger err, by rw [heq]⟩

theorem writes_rejectRequest :
    Writes e.ledger (e.rejectRequest r now events).2.1.ledger := by
  unfold Engine.rejectRequest
  split
  · exact .refl _
  split
  · exact .refl _
  split
  · exact .refl _
  · refine Writes.trans ?_ (Writes.request _ _ ?_)
    · exact Writes.trans (Ledger.writes_rejectLegs (w := (e.ledger, events)))
        Ledger.writes_releaseIfHeld
    · exact fun _ => rfl

theorem writes_acceptRequest {expected : List ExpectedFill} :
    Writes e.ledger (e.acceptRequest r expected now events).2.1.ledger := by
  unfold Engine.acceptRequest
  split
  · exact .refl _
  · refine Writes.trans ?_ (Writes.request _ _ ?_)
    · exact Writes.trans (Ledger.writes_acceptLegs (w := (e.ledger, events)))
        Ledger.writes_commit
    · exact fun _ => rfl

theorem writes_settleRequest (nonce : Nonce) (events : EventBuffer) :
    Writes e.ledger (e.settleRequest r nonce events).1 := by
  refine Writes.trans ?_ Ledger.writes_closeConsumedQuotes
  refine Writes.trans Ledger.writes_dischargeCommitted (Writes.request _ _ ?_)
  exact fun _ => rfl

theorem writes_failRequest (nonce : Nonce) (events : EventBuffer) :
    Writes e.ledger (e.failRequest r nonce events).1 := by
  refine Writes.trans ?_ (Writes.request _ _ ?_)
  · exact Writes.trans Ledger.writes_dischargeCommitted Ledger.writes_closeConsumedQuotes
  · exact fun _ => rfl

theorem writes_pollSettlement {nonce : Nonce} {status : TxStatus} :
    Writes e.ledger (e.pollSettlement nonce status now events).2.1.ledger := by
  unfold Engine.pollSettlement
  split
  · exact .refl _
  split
  · exact .refl _
  split
  · split
    · exact .refl _
    split
    · split
      · exact .refl _
      split <;> exact .refl _
    · split
      · exact .refl _
      split <;> exact .refl _
    · split
      · exact .refl _
      · exact writes_settleRequest nonce events
    · split
      · exact .refl _
      · exact writes_failRequest nonce events
  · exact .refl _

/-- No other command than a quote or a request brings a record, and none but a
    quote publishes. -/
theorem writes_perform (hquote : ∀ maker r leg price size expiresAt,
      command ≠ .submitQuote maker r leg price size expiresAt)
    (hrequest : ∀ requester deadline legs, command ≠ .submitRequest requester deadline legs) :
    Writes e.ledger (e.perform command now events).2.1.ledger := by
  cases command with
  | creditAccount account free =>
      simp only [Engine.perform, Ledger.applyMirrorUpdate]
      cases e.ledger.account account <;> exact .same rfl rfl
  | registerContract contract eventDate =>
      have hsame : Writes e.ledger (e.ledger.registerContract contract eventDate).2 := by
        unfold Ledger.registerContract
        repeat' split
        all_goals exact .same rfl rfl
      rw [Engine.perform]
      split
      next heq => rwa [heq] at hsame
      next heq => rwa [heq] at hsame
  | submitRequest => exact absurd rfl (hrequest _ _ _)
  | rejectRequest r => exact writes_rejectRequest
  | submitQuote => exact absurd rfl (hquote _ _ _ _ _ _)
  | cancelQuote q =>
      rw [Engine.perform]
      split <;> exact .refl _
  | acceptRequest r expected => exact writes_acceptRequest
  | pollSettlement nonce status => exact writes_pollSettlement
  | reportOracleStatus contract status =>
      rw [Engine.perform]
      unfold Engine.reportOracleStatus
      repeat' split
      all_goals exact .same rfl rfl
  | settleEscrow escrow contract =>
      rw [Engine.perform]
      unfold Engine.settleEscrow
      repeat' split
      all_goals exact .same rfl rfl

/-- Only a quote takes an arrival number. -/
theorem nextArrival_perform (hquote : ∀ maker r leg price size expiresAt,
      command ≠ .submitQuote maker r leg price size expiresAt) :
    (e.perform command now events).2.1.nextArrival = e.nextArrival := by
  cases command with
  | submitQuote => exact absurd rfl (hquote _ _ _ _ _ _)
  | submitRequest requester deadline legs =>
      rw [Engine.perform]
      unfold Engine.submitRequest
      iterate 6
        split
        · rfl
      dsimp only
      split <;> rfl
  | rejectRequest r =>
      rw [Engine.perform]
      unfold Engine.rejectRequest
      repeat' split
      all_goals rfl
  | acceptRequest r expected =>
      rw [Engine.perform]
      unfold Engine.acceptRequest
      split <;> rfl
  | pollSettlement nonce status =>
      rw [Engine.perform]
      unfold Engine.pollSettlement
      repeat' split
      all_goals rfl
  | reportOracleStatus contract status =>
      rw [Engine.perform]
      unfold Engine.reportOracleStatus
      repeat' split
      all_goals rfl
  | settleEscrow escrow contract =>
      rw [Engine.perform]
      unfold Engine.settleEscrow
      repeat' split
      all_goals rfl
  | _ =>
      rw [Engine.perform]
      split <;> rfl

end Engine

end RfqSettlement
