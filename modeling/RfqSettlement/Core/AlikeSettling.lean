/-
  RfqSettlement.Core.AlikeSettling

  Accepts and settlements on two engines alike to everyone but one account.

  An accept is the one command that reads a limit and shows what it found.  Where both
  engines accept they fill the same quotes at the same prices, since a best quote under two
  limits is the same one; so all that an accept tells of a limit is that it was enough.
-/

import RfqSettlement.Core.AlikeHandlers
import RfqSettlement.Core.Planning

namespace RfqSettlement

namespace Engine

variable {a : Nat} {e e' : Engine} {own : Prop} {shown : Event → Bool} {b : EventBuffer} {r : ReqIdx}
  {now : Nat}

-- ============================================================================
-- Plans
-- ============================================================================

/-- Two plans that both succeed fill the same quotes. -/
theorem Alike.planAccept_unique (h : Alike a e e') {legs legs' : List Leg}
    (hlegs : List.Forall₂ (Leg.Alike own) legs legs') {index total : Nat} {expected expected' : List ExpectedFill}
    {plan result result' : List Selection} {cost cost' : Nat}
    (hplan : e.planAccept now index legs expected plan total = .ok (result, cost))
    (hplan' : e'.planAccept now index legs' expected' plan total = .ok (result', cost')) :
    result = result' ∧ cost = cost' := by
  induction hlegs generalizing index total expected expected' plan with
  | nil =>
      obtain ⟨rfl, rfl⟩ := Prod.mk.inj (Except.ok.inj hplan)
      obtain ⟨rfl, rfl⟩ := Prod.mk.inj (Except.ok.inj hplan')
      exact ⟨rfl, rfl⟩
  | @cons x x' legs legs' hx _ ih =>
      unfold Engine.planAccept at hplan hplan'
      rw [← h.ledger.bestOnLeg x'] at hplan'
      split at hplan
      · cases hplan
      next best hbest =>
      split at hplan'
      · cases hplan'
      next best' hbest' =>
      obtain rfl := Ledger.bestOnLeg_unique hx.quotesHead hx.size hbest hbest'
      rw [hx.size] at hplan
      split at hplan
      · cases hplan
      split at hplan
      · cases hplan
      split at hplan
      · cases hplan
      split at hplan
      · cases hplan
      next total₁ htotal =>
      split at hplan'
      · cases hplan'
      split at hplan'
      · cases hplan'
      split at hplan'
      · cases hplan'
      rw [htotal] at hplan'
      exact ih hplan hplan'

theorem Alike.planAccept (h : Alike a e e') (legs : List Leg) (index total : Nat) (expected : List ExpectedFill)
    (plan : List Selection) :
    e.planAccept now index legs expected plan total = e'.planAccept now index legs expected plan total := by
  induction legs generalizing index total expected plan with
  | nil => rfl
  | cons x legs ih => simp only [Engine.planAccept, h.ledger.bestOnLeg, ih]

theorem Alike.buildIntent {l l' : Ledger} (h : Ledger.Alike a l l') {legs legs' : List Leg}
    (hlegs : List.Forall₂ (Leg.Alike own) legs legs') (plan : List Selection) :
    Engine.buildIntent l legs plan = Engine.buildIntent l' legs' plan := by
  induction hlegs generalizing plan with
  | nil => rfl
  | cons hx _ ih =>
      cases plan with
      | nil => rfl
      | cons winner plan =>
          simp only [Engine.buildIntent, h.quote, ih, hx.contract, hx.side, hx.size]

-- ============================================================================
-- Accepts
-- ============================================================================

/-- What a check that succeeds has read. -/
theorem checkAccept_eq_ok {expected : List ExpectedFill} {acc : Acceptance}
    (h : e.checkAccept r expected now b = .ok acc) :
    e.ledger.request r = some acc.record ∧
      e.planAccept now 0 acc.record.legs expected [] 0 = .ok (acc.plan, acc.total) ∧
      acc.record.claim = some acc.claim ∧ Engine.buildIntent e.ledger acc.record.legs acc.plan = .ok acc.intent := by
  unfold Engine.checkAccept at h
  split at h
  · cases h
  next record hrecord =>
  split at h
  · cases h
  split at h
  · cases h
  split at h
  · cases h
  split at h
  · cases h
  next plan total hplan =>
  split at h
  · cases h
  next claim hclaim =>
  split at h
  · cases h
  split at h
  · cases h
  split at h
  · cases h
  split at h
  · cases h
  next intent hintent =>
  obtain rfl := Except.ok.inj h
  exact ⟨hrecord, hplan, hclaim, hintent⟩

/-- The claim of a request is on the account that requested it. -/
theorem Sane.account_claim (hs : e.Sane) {y : Request} {c : ResIdx} {v : Reservation}
    (hy : e.ledger.request r = some y) (hclaim : y.claim = some c) (hv : e.ledger.reservation c = some v) :
    v.account = y.requester := by
  have howner : e.ledger.book.ownerClaim (.request r) = some (some c) := by
    rw [Ledger.ownerClaim_book, Ledger.ownerClaim, hy, Option.map_some, hclaim]
  obtain ⟨k, hk, hkowner⟩ := hs.healthy.intact.balanced.holder _ _ howner
  rw [Ledger.book_claims hv, Option.some.injEq] at hk
  subst hk
  obtain ⟨z, hz, hbacks⟩ := hs.healthy.coherent.auctioned c v.toClaim r (Ledger.book_claims hv) hkowner
  obtain rfl := Option.some.inj ((Ledger.market_auctions hy).symm.trans hz)
  exact hbacks.account

/-- An accept of another account's request reads nothing of `a`'s. -/
theorem Alike.checkAccept_other (h : Alike a e e') (hs : e.Sane) (expected : List ExpectedFill)
    (hother : (e.ledger.request r).map Request.requester ≠ some a) :
    e.checkAccept r expected now b = e'.checkAccept r expected now b := by
  unfold Engine.checkAccept
  have hy := h.ledger.request r
  cases hget : e.ledger.request r with
  | none =>
      rw [hget] at hy
      generalize e'.ledger.request r = y' at hy
      cases hy
      rfl
  | some y =>
      rw [hget] at hy hother
      generalize e'.ledger.request r = y' at hy
      cases hy with
      | @some _ y' hy =>
      have hne : y.requester ≠ a := fun heq => hother (by rw [Option.map_some, heq])
      obtain rfl : y = y' := by
        have hlegs : y.legs = y'.legs := List.forall₂_eq_eq_eq ▸ hy.legs.imp fun _ _ hx => hx.shown hne
        cases y
        cases y'
        simp only [Request.mk.injEq]
        exact ⟨hy.requester, hy.deadline, hy.state, hlegs, hy.claim, hy.committedHead⟩
      dsimp only
      rw [h.planAccept, h.config]
      split
      · rfl
      split
      · rfl
      split
      · rfl
      split
      · rfl
      split
      · rfl
      next c hclaim =>
      have hv := h.ledger.reservation c
      cases hreservation : e.ledger.reservation c with
      | none =>
          rw [hreservation] at hv
          generalize e'.ledger.reservation c = v' at hv
          cases hv
          rfl
      | some v =>
          have haccount := hs.account_claim hget hclaim hreservation
          rw [hreservation] at hv
          generalize e'.ledger.reservation c = v' at hv
          cases hv with
          | @some _ v' hv =>
          dsimp only
          rw [hv.amount (haccount ▸ hne), Alike.buildIntent h.ledger hy.legs]

/-- What the commit phase of an accept works from is the same in both. -/
theorem Alike.commitAccept (h : Alike a e e') {acc acc' : Acceptance} (hplan : acc.plan = acc'.plan)
    (htotal : acc.total = acc'.total) (hclaim : acc.claim = acc'.claim) (hintent : acc.intent = acc'.intent)
    (hrequester : acc.record.requester = acc'.record.requester) :
    Work.Alike a (e.commitAccept r acc now b) (e'.commitAccept r acc' now b) := by
  unfold Engine.commitAccept
  have hstart : Work.Alike a (e.ledger, b) (e'.ledger, b) := ⟨h.ledger, rfl⟩
  have hlegs := hstart.acceptLegs r now 0 acc'.plan
  rw [hplan, htotal, hclaim, hintent, hrequester, h.config]
  refine ⟨(hlegs.ledger.commitCommit _ r fun _ _ _ => rfl).setState r _, ?_⟩
  dsimp only
  rw [hlegs.events]

theorem Alike.acceptRequest (h : Alike a e e') (hs : e.Sane) {expected expected' : List ExpectedFill}
    (hexpected : (e.ledger.request r).map Request.requester ≠ some a → expected = expected')
    (hsame : (e.ledger.request r).map Request.requester = some a →
      (e.acceptRequest r expected now b).1.isOk = (e'.acceptRequest r expected' now b).1.isOk) :
    Answer.Alike a ((e.ledger.request r).map Request.requester = some a) shown
      (e.acceptRequest r expected now b) (e'.acceptRequest r expected' now b) := by
  by_cases hown : (e.ledger.request r).map Request.requester = some a
  · have hsame := hsame hown
    unfold Engine.acceptRequest at hsame ⊢
    cases hcheck : e.checkAccept r expected now b with
    | error err =>
        rw [hcheck] at hsame
        cases hcheck' : e'.checkAccept r expected' now b with
        | error err' => exact h.refuse fun hother => absurd hown hother
        | ok acc' =>
            rw [hcheck'] at hsame
            cases hsame
    | ok acc =>
        rw [hcheck] at hsame
        cases hcheck' : e'.checkAccept r expected' now b with
        | error err' =>
            rw [hcheck'] at hsame
            cases hsame
        | ok acc' =>
            obtain ⟨hy, hplan, hclaim, hintent⟩ := checkAccept_eq_ok hcheck
            obtain ⟨hy', hplan', hclaim', hintent'⟩ := checkAccept_eq_ok hcheck'
            have halike := h.ledger.request r
            rw [hy, hy'] at halike
            cases halike with
            | some halike =>
            obtain ⟨hplans, htotals⟩ := h.planAccept_unique halike.legs hplan hplan'
            have hclaims : acc.claim = acc'.claim := by
              have heq := halike.claim
              rwa [hclaim, hclaim', Option.some.injEq] at heq
            rw [Alike.buildIntent h.ledger halike.legs, hplans, hintent', Except.ok.injEq] at hintent
            exact h.done (h.commitAccept hplans htotals hclaims hintent.symm halike.requester)
  · obtain rfl := hexpected hown
    unfold Engine.acceptRequest
    rw [h.checkAccept_other hs expected hown]
    split
    · exact h.refuse fun _ => rfl
    · exact h.done (h.commitAccept rfl rfl rfl rfl rfl)

-- ============================================================================
-- Settlements
-- ============================================================================

theorem Alike.resolveNonce {l l' : Ledger} (h : Ledger.Alike a l l') (nonce : Nonce) :
    Engine.resolveNonce l nonce = Engine.resolveNonce l' nonce := by
  rw [Engine.resolveNonce, Engine.resolveNonce, h.requestHandleAt]

theorem Alike.closeConsumedQuotes {l l' : Ledger} (h : Ledger.Alike a l l') (r : ReqIdx) :
    Ledger.Alike a (Engine.closeConsumedQuotes l r) (Engine.closeConsumedQuotes l' r) := by
  unfold Engine.closeConsumedQuotes
  rw [h.quotes]
  exact Entrywise.foldl (fun _ _ q hl => hl.commitCloseQuote q) _ h

theorem Alike.notices {l l' : Ledger} (h : Ledger.Alike a l l') {visited visited' : List (ResOwner × Nat)}
    (hvisited : visited.map Prod.fst = visited'.map Prod.fst) :
    Engine.notices l visited = Engine.notices l' visited' := by
  unfold Engine.notices
  rw [Entrywise.filterMap_fst (fun x y heq => by rw [heq]) hvisited]
  simp only [h.quote]

theorem Alike.settleRequest (h : Alike a e e') (nonce : Nonce) :
    Work.Alike a (e.settleRequest r nonce b) (e'.settleRequest r nonce b) :=
  ⟨closeConsumedQuotes ((h.ledger.dischargeCommitted r).2.setState r .escrowed) r, rfl⟩

theorem Alike.failRequest (h : Alike a e e') (nonce : Nonce) :
    Work.Alike a (e.failRequest r nonce b) (e'.failRequest r nonce b) := by
  unfold Engine.failRequest
  obtain ⟨hvisited, hledger⟩ := h.ledger.dischargeCommitted r
  refine ⟨(closeConsumedQuotes hledger r).setState r .settlementFailed, ?_⟩
  dsimp only
  rw [notices hledger hvisited]

theorem Alike.pollSettlement (h : Alike a e e') (nonce : Nonce) (status : TxStatus) :
    Answer.Alike a own shown (e.pollSettlement nonce status now b) (e'.pollSettlement nonce status now b) := by
  unfold Engine.pollSettlement
  rw [resolveNonce h.ledger]
  split
  · exact h.refuse fun _ => rfl
  next r _ =>
  have hy := h.ledger.request r
  generalize e.ledger.request r = y at hy
  generalize e'.ledger.request r = y' at hy
  cases hy with
  | none => exact h.refuse fun _ => rfl
  | @some y y' hy =>
      have hlegs : y.nLegs = y'.nLegs := hy.legs.length_eq
      dsimp only
      rw [hy.state, hlegs]
      split
      next deadline =>
        split
        · exact h.refuse fun _ => rfl
        cases status with
        | unknown =>
            dsimp only
            split
            · exact ⟨.ok (), h, rfl⟩
            split
            · exact h.refuse fun _ => rfl
            · exact ⟨.ok (), h, rfl⟩
        | pending =>
            dsimp only
            split
            · exact ⟨.ok (), h, rfl⟩
            split
            · exact h.refuse fun _ => rfl
            · exact ⟨.ok (), h, rfl⟩
        | settled =>
            dsimp only
            split
            · exact h.refuse fun _ => rfl
            · exact h.done (h.settleRequest _)
        | reverted =>
            dsimp only
            split
            · exact h.refuse fun _ => rfl
            · exact h.done (h.failRequest _)
      · exact h.refuse fun _ => rfl

-- ============================================================================
-- Resolution
-- ============================================================================

theorem Alike.reportOracleStatus (h : Alike a e e') (contract : Nat) (status : OracleStatus) :
    Answer.Alike a own shown (e.reportOracleStatus contract status b) (e'.reportOracleStatus contract status b) := by
  unfold Engine.reportOracleStatus
  rw [h.ledger.contract]
  split
  · exact h.refuse fun _ => rfl
  split
  · exact h.refuse fun _ => rfl
  split
  · exact h.refuse fun _ => rfl
  · exact h.done ⟨h.ledger.setOracleStatus contract status, rfl⟩

theorem Alike.settleEscrow (h : Alike a e e') (escrow contract : Nat) :
    Answer.Alike a own shown (e.settleEscrow escrow contract now b) (e'.settleEscrow escrow contract now b) := by
  unfold Engine.settleEscrow
  rw [h.ledger.contract, h.config]
  split
  · exact h.refuse fun _ => rfl
  split
  · exact h.refuse fun _ => rfl
  split
  · exact h.refuse fun _ => rfl
  · exact ⟨.ok (), h, rfl⟩

end Engine

end RfqSettlement
