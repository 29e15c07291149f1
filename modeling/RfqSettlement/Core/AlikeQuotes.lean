/-
  RfqSettlement.Core.AlikeQuotes

  Quotes and their selection on two ledgers alike to everyone but one account.

  Quotes are the same in both, so a leg's chain is the same list; what may differ is the
  limit it is read against.  Of two limits that both admit a quote the best one under the
  stricter is the best one under the laxer, so where both find a best quote they agree.
-/

import RfqSettlement.Core.AlikeOps
import RfqSettlement.Core.Engine

namespace RfqSettlement

namespace Ledger

namespace Alike

variable {a : Nat} {l l' : Ledger} {r : ReqIdx} {i now : Nat}

-- ============================================================================
-- Legs
-- ============================================================================

/-- A leg is in both or in neither, and differs only if its requester is `a`. -/
theorem legOf (h : Alike a l l') (r : ReqIdx) (i : Nat) :
    (l.legOf r i = none ∧ l'.legOf r i = none) ∨
      ∃ y x x', l.request r = some y ∧ l.legOf r i = some x ∧ l'.legOf r i = some x' ∧
        Leg.Alike (y.requester = a) x x' := by
  have hy := h.request r
  unfold Ledger.legOf
  generalize l.request r = y at hy ⊢
  generalize l'.request r = y' at hy ⊢
  cases hy with
  | none => exact .inl ⟨rfl, rfl⟩
  | @some y y' hy =>
      have hx := Entrywise.getElem? hy.legs i
      simp only [Option.bind_some, Request.leg]
      generalize y.legs[i]? = x at hx ⊢
      generalize y'.legs[i]? = x' at hx ⊢
      cases hx with
      | none => exact .inl ⟨rfl, rfl⟩
      | some hx => exact .inr ⟨y, _, _, rfl, rfl, rfl, hx⟩

theorem modifyLeg (h : Alike a l l') (r : ReqIdx) (i : Nat) {f : Leg → Leg}
    (hf : ∀ own x x', Leg.Alike own x x' → Leg.Alike own (f x) (f x')) :
    Alike a (l.modifyLeg r i f) (l'.modifyLeg r i f) :=
  h.modifyRequest r fun _ _ hy =>
    ⟨hy.requester, hy.deadline, hy.state, hy.claim, hy.committedHead,
      Entrywise.modify hy.legs i fun x x' hx => hf _ x x' hx⟩

/-- A leg of `a`'s own, rewritten where only `a` looks. -/
theorem modifyOwn (h : Alike a l l') {y : Request} (hy : l.request r = some y) (hown : y.requester = a)
    {f f' : Leg → Leg} (hf : ∀ x x', Leg.Alike True x x' → Leg.Alike True (f x) (f' x')) :
    Alike a (l.modifyLeg r i f) (l'.modifyLeg r i f') := by
  refine h.modifyRecord r fun z z' hz halike => ?_
  obtain rfl := Option.some.inj (hy.symm.trans hz)
  refine ⟨halike.requester, halike.deadline, halike.state, halike.claim, halike.committedHead, ?_⟩
  have hlegs := halike.legs
  have htrue : (y.requester = a) = True := eq_true hown
  show List.Forall₂ (Leg.Alike (y.requester = a)) _ _
  rw [htrue] at hlegs ⊢
  exact Entrywise.modify hlegs i hf

theorem nextOnLeg (h : Alike a l l') (q : QuoteIdx) : l.nextOnLeg q = l'.nextOnLeg q := by
  rw [Ledger.nextOnLeg, Ledger.nextOnLeg, h.quote]

theorem linkQuote (h : Alike a l l') (r : ReqIdx) (i : Nat) (q : QuoteIdx) :
    Alike a (l.linkQuote r i q) (l'.linkQuote r i q) := by
  have hhead : ((l.legOf r i).map Leg.quotesHead).getD none = ((l'.legOf r i).map Leg.quotesHead).getD none := by
    rcases h.legOf r i with ⟨hx, hx'⟩ | ⟨y, x, x', -, hx, hx', halike⟩
    · rw [hx, hx']
    · rw [hx, hx', Option.map_some, Option.map_some, halike.quotesHead]
  unfold Ledger.linkQuote
  dsimp only
  rw [hhead]
  refine modifyLeg (h.modifyQuote q _) r i fun own x x' hx => ?_
  exact ⟨hx.contract, hx.side, hx.size, rfl, by rw [hx.quoteCount], fun hown => by rw [hx.shown hown]⟩

theorem unlinkQuoteFrom (h : Alike a l l') (r : ReqIdx) (i : Nat) (q : QuoteIdx) (fuel : Nat) (cursor : Link) :
    Alike a (l.unlinkQuoteFrom r i q fuel cursor) (l'.unlinkQuoteFrom r i q fuel cursor) := by
  induction fuel generalizing cursor with
  | zero =>
      cases cursor with
      | none => exact h
      | some index => exact h
  | succ fuel ih =>
      cases cursor with
      | none => exact h
      | some index =>
          unfold Ledger.unlinkQuoteFrom
          rw [h.quoteHandleAt]
          split
          · exact h
          next handle _ =>
          rw [h.quote]
          split
          · exact h
          next current _ =>
          split
          · rw [h.nextOnLeg]
            refine modifyLeg (h.modifyQuote handle _) r i fun own x x' hx => ?_
            exact ⟨hx.contract, hx.side, hx.size, hx.quotesHead, by rw [hx.quoteCount],
              fun hown => by rw [hx.shown hown]⟩
          · exact ih _

theorem unlinkQuote (h : Alike a l l') (r : ReqIdx) (i : Nat) (q : QuoteIdx) :
    Alike a (l.unlinkQuote r i q) (l'.unlinkQuote r i q) := by
  unfold Ledger.unlinkQuote
  rcases h.legOf r i with ⟨hx, hx'⟩ | ⟨y, x, x', -, hx, hx', halike⟩
  · rw [hx, hx']
    exact h
  · rw [hx, hx']
    dsimp only
    rw [halike.quotesHead, h.quotes, h.nextOnLeg]
    split
    · refine h.modifyLeg r i fun own x x' hx => ?_
      exact ⟨hx.contract, hx.side, hx.size, rfl, by rw [hx.quoteCount], fun hown => by rw [hx.shown hown]⟩
    · exact h.unlinkQuoteFrom r i q _ _

theorem releaseIfHeld (h : Alike a l l') (claim : Option ResIdx) :
    Alike a (l.releaseIfHeld claim) (l'.releaseIfHeld claim) := by
  cases claim with
  | none => exact h
  | some claim => exact h.commitRelease claim

theorem retireQuote (h : Alike a l l') (r : ReqIdx) (i : Nat) (q : QuoteIdx) (claim : Option ResIdx) :
    Alike a (l.retireQuote r i q claim) (l'.retireQuote r i q claim) :=
  (((h.releaseIfHeld claim).modifyQuote q _).unlinkQuote r i q).commitCloseQuote q

-- ============================================================================
-- Walks
-- ============================================================================

theorem walkFrom (h : Alike a l l') (fuel : Nat) (cursor : Link) :
    l.walkFrom fuel cursor = l'.walkFrom fuel cursor := by
  induction fuel generalizing cursor with
  | zero => cases cursor <;> rfl
  | succ fuel ih =>
      cases cursor with
      | none => rfl
      | some index => simp only [Ledger.walkFrom, h.quoteHandleAt, h.quote, ih]

theorem walkLeg (h : Alike a l l') {x x' : Leg} (hhead : x.quotesHead = x'.quotesHead) :
    l.walkLeg x = l'.walkLeg x' := by
  rw [Ledger.walkLeg, Ledger.walkLeg, h.walkFrom, h.quotes, hhead]

theorem standingQuoteOf (h : Alike a l l') {x x' : Leg} (hhead : x.quotesHead = x'.quotesHead) (maker : Nat) :
    l.standingQuoteOf x maker = l'.standingQuoteOf x' maker := by
  rw [Ledger.standingQuoteOf, Ledger.standingQuoteOf, h.walkLeg hhead]

theorem bestOnLeg (h : Alike a l l') (x : Leg) (now : Nat) : l.bestOnLeg x now = l'.bestOnLeg x now := by
  rw [Ledger.bestOnLeg, Ledger.bestOnLeg, h.walkLeg rfl]

end Alike

end Ledger

-- ============================================================================
-- Two limits
-- ============================================================================

/-- Two scans of one chain, the first against a stricter limit: its best is the best of
    both, and while it has none what the other has is beyond that limit. -/
structure Scan.Nested (limit : Nat) (s s' : Scan) : Prop where
  best : ∀ b, s.best = some b → s'.best = some b ∧ s'.bestArrival = s.bestArrival ∧ b.price ≤ limit
  beyond : s.best = none → ∀ b, s'.best = some b → limit < b.price

theorem Scan.Nested.visit {x x' : Leg} {now : Nat} {s s' : Scan} (h : Nested x.limit s s')
    (hsize : x.size = x'.size) (hlimit : x.limit ≤ x'.limit) (v : QuoteIdx × Quote) :
    Nested x.limit (s.visit x now v) (s'.visit x' now v) := by
  unfold Scan.visit
  dsimp only
  rw [← hsize]
  split
  · exact ⟨h.best, h.beyond⟩
  split
  · exact ⟨h.best, h.beyond⟩
  by_cases hover : x.limit < v.2.price
  · rw [if_pos hover]
    split
    · exact ⟨h.best, h.beyond⟩
    split
    next hbetter =>
      -- a quote beyond the stricter limit never displaces one within it
      refine ⟨fun b hb => ?_, fun _ b hb => ?_⟩
      · obtain ⟨hb', -, hprice⟩ := h.best b hb
        simp [Scan.better, hb'] at hbetter
        omega
      · obtain rfl := Option.some.inj hb
        exact hover
    next => exact ⟨h.best, h.beyond⟩
  · rw [if_neg hover, if_neg (by omega : ¬ x'.limit < v.2.price)]
    have hbetter : Scan.better { s with sawQuote := true, sawLive := true, sawBigEnough := true } v.2 = true →
        Scan.better { s' with sawQuote := true, sawLive := true, sawBigEnough := true } v.2 = true := by
      unfold Scan.better
      cases hs : s.best with
      | none =>
          intro _
          cases hs' : s'.best with
          | none => rfl
          | some b =>
              have hbeyond := h.beyond hs b hs'
              have hlt : v.2.price < b.price := by omega
              simp [hlt]
      | some b =>
          obtain ⟨hs', harrival, -⟩ := h.best b hs
          rw [hs', harrival]
          exact id
    by_cases hs : Scan.better { s with sawQuote := true, sawLive := true, sawBigEnough := true } v.2 = true
    · rw [if_pos hs, if_pos (hbetter hs)]
      refine ⟨fun b hb => ?_, fun hb => by cases hb⟩
      obtain rfl := Option.some.inj hb
      exact ⟨rfl, rfl, by simpa using hover⟩
    · rw [if_neg hs]
      obtain ⟨b, hbest⟩ : ∃ b, s.best = some b := by
        refine Option.ne_none_iff_exists'.mp fun hnone => hs ?_
        simp [Scan.better, hnone]
      obtain ⟨hs', harrival, -⟩ := h.best b hbest
      have hsame : Scan.better { s' with sawQuote := true, sawLive := true, sawBigEnough := true } v.2 =
          Scan.better { s with sawQuote := true, sawLive := true, sawBigEnough := true } v.2 := by
        simp only [Scan.better, hs', hbest, harrival]
      rw [if_neg (hsame ▸ hs)]
      exact ⟨h.best, h.beyond⟩

theorem Scan.Nested.foldl {x x' : Leg} {now : Nat} (vs : List (QuoteIdx × Quote)) {s s' : Scan}
    (h : Nested x.limit s s') (hsize : x.size = x'.size) (hlimit : x.limit ≤ x'.limit) :
    Nested x.limit (vs.foldl (Scan.visit x now) s) (vs.foldl (Scan.visit x' now) s') := by
  induction vs generalizing s s' with
  | nil => exact h
  | cons v vs ih => exact ih (h.visit hsize hlimit v)

namespace Ledger

theorem bestOnLeg_of_limit_le {l : Ledger} {x x' : Leg} {now : Nat} {best best' : Selection}
    (hhead : x.quotesHead = x'.quotesHead) (hsize : x.size = x'.size) (hlimit : x.limit ≤ x'.limit)
    (hbest : l.bestOnLeg x now = .ok best) (hbest' : l.bestOnLeg x' now = .ok best') : best = best' := by
  have hnested : Scan.Nested x.limit ((l.walkLeg x).foldl (Scan.visit x now) {})
      ((l.walkLeg x).foldl (Scan.visit x' now) {}) :=
    Scan.Nested.foldl _ ⟨by simp, by simp⟩ hsize hlimit
  have hwalk : l.walkLeg x' = l.walkLeg x := by rw [walkLeg, walkLeg, hhead]
  unfold Ledger.bestOnLeg at hbest hbest'
  rw [hwalk] at hbest'
  dsimp only at hbest hbest'
  split at hbest
  next b hb =>
    obtain rfl := Except.ok.inj hbest
    rw [(hnested.best b hb).1] at hbest'
    exact Except.ok.inj hbest'
  next => cases hbest

/-- Two limits under both of which a leg has a best quote have the same one. -/
theorem bestOnLeg_unique {l : Ledger} {x x' : Leg} {now : Nat} {best best' : Selection}
    (hhead : x.quotesHead = x'.quotesHead) (hsize : x.size = x'.size)
    (hbest : l.bestOnLeg x now = .ok best) (hbest' : l.bestOnLeg x' now = .ok best') : best = best' := by
  rcases Nat.le_total x.limit x'.limit with hlimit | hlimit
  · exact bestOnLeg_of_limit_le hhead hsize hlimit hbest hbest'
  · exact (bestOnLeg_of_limit_le hhead.symm hsize.symm hlimit hbest' hbest).symm

end Ledger

end RfqSettlement
