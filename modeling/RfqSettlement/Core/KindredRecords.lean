/-
  RfqSettlement.Core.KindredRecords

  What writes a record, on two ledgers that differ in nothing but claims.

  A quote linked, unlinked or closed, a leg or a state rewritten, a record stored: each
  does the same to both.  Where a claim goes with it, the claim may be there in one of
  them and gone from the other.
-/

import RfqSettlement.Core.Kindred

namespace RfqSettlement

-- ============================================================================
-- What a slab lists
-- ============================================================================

namespace Slab

variable {kind : SlabKind} {α : Type} {R : α → α → Prop} {s s' : Slab kind α}

/-- Two slabs alike list the same handles, in the same order, with values alike. -/
theorem Twins.iter {β : Type} (h : Twins R s s') {f : α → β} (hf : ∀ v v', R v v' → f v = f v') :
    s.iter.map (fun x => (x.1, f x.2)) = s'.iter.map fun x => (x.1, f x.2) := by
  have hfrom : ∀ (entry : Slot α × Nat → Option (Handle kind × α)),
      (∀ generation v i, entry (⟨generation, .occupied v⟩, i) = some (⟨i, generation⟩, v)) →
      (∀ generation next i, entry (⟨generation, .vacant next⟩, i) = none) →
      ∀ {xs xs' : List (Slot α)}, List.Forall₂ (Slot.Twins R) xs xs' → ∀ k,
        ((xs.zipIdx k).filterMap entry).map (fun x => (x.1, f x.2)) =
          ((xs'.zipIdx k).filterMap entry).map fun x => (x.1, f x.2) := by
    intro entry hoccupied hvacant xs xs' hslots
    induction hslots with
    | nil => exact fun k => rfl
    | @cons x x' xs xs' hx _ ih =>
        intro k
        obtain ⟨g, state⟩ := x
        obtain ⟨g', state'⟩ := x'
        obtain ⟨hg, hstate⟩ := hx
        obtain rfl : g = g' := hg
        rw [List.zipIdx_cons, List.zipIdx_cons]
        cases hstate with
        | vacant =>
            rw [List.filterMap_cons_none (hvacant _ _ _), List.filterMap_cons_none (hvacant _ _ _)]
            exact ih _
        | occupied hv =>
            rw [List.filterMap_cons_some (hoccupied _ _ _), List.filterMap_cons_some (hoccupied _ _ _),
              List.map_cons, List.map_cons, ih, hf _ _ hv]
  exact hfrom _ (fun _ _ _ => rfl) (fun _ _ _ => rfl) h.slots 0

end Slab

namespace Ledger

namespace Kindred

variable {l l' : Ledger} {r : ReqIdx} {i : Nat} {q : QuoteIdx}

-- ============================================================================
-- Writes
-- ============================================================================

theorem assert (h : Kindred l l') {b b' : Bool} : Kindred (l.debugAssert b) (l'.debugAssert b') :=
  ⟨h.free, h.contracts, h.requests, h.quotes⟩

theorem modifyQuote (h : Kindred l l') (q : QuoteIdx) {f : Quote → Quote}
    (hf : ∀ x, (f x).setClaim none = f (x.setClaim none)) :
    Kindred (l.modifyQuote q f) (l'.modifyQuote q f) := by
  refine ⟨h.free, h.contracts, h.requests, h.quotes.modify q fun x x' _ hx => ?_⟩
  rw [hf, hf, hx]

theorem modifyRequest (h : Kindred l l') (r : ReqIdx) {f : Request → Request}
    (hf : ∀ y, (f y).bare = f y.bare) : Kindred (l.modifyRequest r f) (l'.modifyRequest r f) := by
  refine ⟨h.free, h.contracts, h.requests.modify r fun y y' _ hy => ?_, h.quotes⟩
  rw [hf, hf, hy]

theorem modifyLeg (h : Kindred l l') (r : ReqIdx) (i : Nat) (f : Leg → Leg) :
    Kindred (l.modifyLeg r i f) (l'.modifyLeg r i f) :=
  h.modifyRequest r fun _ => rfl

theorem withContracts (h : Kindred l l') {contracts contracts' : List (Option Contract)}
    (heq : contracts = contracts') : Kindred { l with contracts } { l' with contracts := contracts' } :=
  ⟨h.free, heq, h.requests, h.quotes⟩

theorem closeQuote (h : Kindred l l') (q : QuoteIdx) :
    Kindred (CommitPhase.closeQuote l q) (CommitPhase.closeQuote l' q) :=
  have hremoved : Kindred { l with quotes := (l.quotes.remove q).2 }
      { l' with quotes := (l'.quotes.remove q).2 } :=
    ⟨h.free, h.contracts, h.requests, (h.quotes.remove q).2⟩
  hremoved.assert

theorem mirror (h : Kindred l l') (account free : Nat) :
    Kindred (l.modifyAccount account fun m => { m with free })
      (l'.modifyAccount account fun m => { m with free }) := by
  refine ⟨fun j => ?_, h.contracts, h.requests, h.quotes⟩
  have hfree := h.free j
  rw [account_modifyAccount, account_modifyAccount]
  split
  · rw [Option.map_map, Option.map_map]
    have hsome := h.isSome_account j
    generalize l.account j = m at hsome ⊢
    generalize l'.account j = m' at hsome ⊢
    cases m <;> cases m' <;> first | rfl | cases hsome
  · exact hfree

-- ============================================================================
-- Quote chains
-- ============================================================================

theorem linkQuote (h : Kindred l l') (r : ReqIdx) (i : Nat) (q : QuoteIdx) :
    Kindred (l.linkQuote r i q) (l'.linkQuote r i q) := by
  unfold Ledger.linkQuote
  dsimp only
  rw [h.legOf]
  exact (h.modifyQuote q (by exact fun _ => rfl)).modifyLeg r i _

theorem unlinkQuoteFrom (h : Kindred l l') (r : ReqIdx) (i : Nat) (q : QuoteIdx) (fuel : Nat) (cursor : Link) :
    Kindred (l.unlinkQuoteFrom r i q fuel cursor) (l'.unlinkQuoteFrom r i q fuel cursor) := by
  induction fuel generalizing cursor with
  | zero =>
      cases cursor with
      | none => exact h
      | some index => exact h
  | succ fuel ih =>
      cases cursor with
      | none => exact h
      | some index =>
          unfold Ledger.unlinkQuoteFrom
          rw [h.quoteHandleAt]
          split
          · exact h
          next handle _ =>
          have hx := h.quote handle
          generalize l.quote handle = x at hx
          generalize l'.quote handle = x' at hx
          cases hx with
          | none => exact h
          | @some x x' hx =>
              have hnext : x.nextOnLeg = x'.nextOnLeg :=
                (congrArg Quote.nextOnLeg hx : (x.setClaim none).nextOnLeg = _)
              dsimp only
              rw [hnext, h.nextOnLeg]
              split
              · exact (h.modifyQuote handle (by exact fun _ => rfl)).modifyLeg r i _
              · exact ih _

theorem unlinkQuote (h : Kindred l l') (r : ReqIdx) (i : Nat) (q : QuoteIdx) :
    Kindred (l.unlinkQuote r i q) (l'.unlinkQuote r i q) := by
  unfold Ledger.unlinkQuote
  rw [h.legOf, h.nextOnLeg, h.quotes.capacity]
  split
  · exact h
  split
  · exact h.modifyLeg r i _
  · exact h.unlinkQuoteFrom r i q _ _

/-- The claim that goes with the quote may be gone from one of them. -/
theorem retireQuote (h : Kindred l l') (r : ReqIdx) (i : Nat) (q : QuoteIdx) (claim claim' : Option ResIdx) :
    Kindred (l.retireQuote r i q claim) (l'.retireQuote r i q claim') := by
  have hreleased : Kindred (l.releaseIfHeld claim) (l'.releaseIfHeld claim') :=
    h.both (fun h => h.releaseIfHeld claim') fun h => h.releaseIfHeld claim
  exact ((hreleased.modifyQuote q (by exact fun _ => rfl)).unlinkQuote r i q).closeQuote q

-- ============================================================================
-- New records
-- ============================================================================

variable {amount : Nat}

/-- Where the coverage check answers alike and neither slab of claims is full, a quote is
    refused in both, or stored in both under one handle. -/
theorem openQuoteReserving (h : Kindred l l') (record : Quote) (amount : Nat)
    (hcheck : l.checkReservable record.maker amount = l'.checkReservable record.maker amount)
    (hroom : (l.openQuoteReserving record amount).1 ≠ .error (.slabExhausted .reservation))
    (hroom' : (l'.openQuoteReserving record amount).1 ≠ .error (.slabExhausted .reservation)) :
    (∃ err, l.openQuoteReserving record amount = (.error err, l) ∧
      l'.openQuoteReserving record amount = (.error err, l')) ∨
    ∃ q c c' m m', l.openQuoteReserving record amount = (.ok (q, c), m) ∧
      l'.openQuoteReserving record amount = (.ok (q, c'), m') ∧ Kindred m m' := by
  unfold Ledger.openQuoteReserving at hroom hroom' ⊢
  rw [← hcheck, ← h.quotes.hasRoom] at hroom' ⊢
  cases hreserved : l.checkReservable record.maker amount with
  | error err => exact .inl ⟨err, rfl, rfl⟩
  | ok reserved =>
      simp only [hreserved] at hroom hroom' ⊢
      by_cases hquotes : l.quotes.hasRoom = true
      · simp only [hquotes, Bool.not_true, Bool.false_eq_true, if_false] at hroom hroom' ⊢
        by_cases hres : l.reservations.hasRoom = true
        · by_cases hres' : l'.reservations.hasRoom = true
          · simp only [hres, hres', Bool.not_true, Bool.false_eq_true, if_false] at hroom hroom' ⊢
            rcases h.quotes.insert (rfl : record.setClaim none = record.setClaim none) with
              ⟨hins, hins'⟩ | ⟨q, t, t', hins, hins', htwins⟩
            · simp only [hins, hins'] at hroom hroom' ⊢
              exact .inl ⟨_, rfl, rfl⟩
            · simp only [hins, hins'] at hroom hroom' ⊢
              split at hroom
              · exact absurd rfl hroom
              next claim reservations hclaim =>
              split at hroom'
              · exact absurd rfl hroom'
              next claim' reservations' hclaim' =>
              refine .inr ⟨q, claim, claim', _, _, rfl, rfl, ?_⟩
              have hstored : Kindred { l with quotes := t } { l' with quotes := t' } :=
                ⟨h.free, h.contracts, h.requests, htwins⟩
              exact hstored.both
                (fun h => (h.withReservations reservations').linkClaim _ claim' _ _ _)
                fun h => (h.withReservations reservations).linkClaim _ claim _ _ _
          · simp [hres'] at hroom'
        · simp [hres] at hroom
      · simp only [hquotes, Bool.not_false, if_true]
        exact .inl ⟨_, rfl, rfl⟩

/-- So is a request. -/
theorem openRequestReserving (h : Kindred l l') (record : Request) (amount : Nat)
    (hcheck : l.checkReservable record.requester amount = l'.checkReservable record.requester amount)
    (hroom : (l.openRequestReserving record amount).1 ≠ .error (.slabExhausted .reservation))
    (hroom' : (l'.openRequestReserving record amount).1 ≠ .error (.slabExhausted .reservation)) :
    (∃ err, l.openRequestReserving record amount = (.error err, l) ∧
      l'.openRequestReserving record amount = (.error err, l')) ∨
    ∃ r c c' m m', l.openRequestReserving record amount = (.ok (r, c), m) ∧
      l'.openRequestReserving record amount = (.ok (r, c'), m') ∧ Kindred m m' := by
  unfold Ledger.openRequestReserving at hroom hroom' ⊢
  rw [← hcheck, ← h.requests.hasRoom] at hroom' ⊢
  cases hreserved : l.checkReservable record.requester amount with
  | error err => exact .inl ⟨err, rfl, rfl⟩
  | ok reserved =>
      simp only [hreserved] at hroom hroom' ⊢
      by_cases hrequests : l.requests.hasRoom = true
      · simp only [hrequests, Bool.not_true, Bool.false_eq_true, if_false] at hroom hroom' ⊢
        by_cases hres : l.reservations.hasRoom = true
        · by_cases hres' : l'.reservations.hasRoom = true
          · simp only [hres, hres', Bool.not_true, Bool.false_eq_true, if_false] at hroom hroom' ⊢
            rcases h.requests.insert (rfl : record.bare = record.bare) with
              ⟨hins, hins'⟩ | ⟨r, t, t', hins, hins', htwins⟩
            · simp only [hins, hins'] at hroom hroom' ⊢
              exact .inl ⟨_, rfl, rfl⟩
            · simp only [hins, hins'] at hroom hroom' ⊢
              split at hroom
              · exact absurd rfl hroom
              next claim reservations hclaim =>
              split at hroom'
              · exact absurd rfl hroom'
              next claim' reservations' hclaim' =>
              refine .inr ⟨r, claim, claim', _, _, rfl, rfl, ?_⟩
              have hstored : Kindred { l with requests := t } { l' with requests := t' } :=
                ⟨h.free, h.contracts, htwins, h.quotes⟩
              exact hstored.both
                (fun h => (h.withReservations reservations').linkClaim _ claim' _ _ _)
                fun h => (h.withReservations reservations).linkClaim _ claim _ _ _
          · simp [hres'] at hroom'
        · simp [hres] at hroom
      · simp only [hrequests, Bool.not_false, if_true]
        exact .inl ⟨_, rfl, rfl⟩

end Kindred

end Ledger

end RfqSettlement
