/-
  RfqSettlement.Core.ChecksHold

  The engine never trips over its own checks.  After every command of every run
  both halves of the ledger's self-check pass, and no assertion of a walk or a
  commit has failed and no saturating operation has been clamped on the way.
-/

import RfqSettlement.Core.Runs

namespace RfqSettlement

namespace Ledger

variable {l : Ledger} {claim : ResIdx} {res : Reservation} {r : ReqIdx}

-- ============================================================================
-- The coherence check
-- ============================================================================

theorem requireSettling_ok {x : Request} (hr : l.request r = some x) (hstate : x.state ≠ .opened) :
    l.requireSettling r claim = .ok () := by
  cases hst : x.state with
  | opened => exact absurd hst hstate
  | _ => simp [requireSettling, hr, hst]

/-- A committed claim hangs off a request that is settling. -/
theorem requireSettling_committed (hc : l.market.Coherent none)
    (hres : l.reservation claim = some res) (hto : res.committedTo = some r) :
    l.requireSettling r claim = .ok () := by
  obtain ⟨a, ha, ⟨n, d, hset⟩ | ⟨hnone, -⟩⟩ := hc.committed claim _ r (market_claims hres)
    (Reservation.committedTo_eq_some.mp hto)
  · obtain ⟨x, hx, rfl⟩ := request_of_market ha
    refine requireSettling_ok hx fun hopened => ?_
    have : x.state = .settling n d := hset
    simp [this] at hopened
  · cases hnone

/-- Every claim's owner is in the state the claim's own state calls for. -/
theorem checkClaimState_ok (hc : l.market.Coherent none) (hres : l.reservation claim = some res) :
    l.checkClaimState claim res = .ok () := by
  have hk := market_claims hres
  cases howner : res.owner with
  | quote q =>
      obtain ⟨o, leg, ho, -, hback⟩ := hc.offered claim _ q hk howner
      obtain ⟨x, hx, rfl⟩ := quote_of_market ho
      cases hto : res.committedTo with
      | none =>
          obtain ⟨e, he⟩ := Reservation.committedTo_eq_none.mp hto
          have hactive : x.state = .active := (hback.reserved e he).1
          simp [checkClaimState, hto, howner, hx, hactive]
      | some list =>
          obtain ⟨hconsumed, hlist⟩ := hback.committed list (Reservation.committedTo_eq_some.mp hto)
          have hconsumed : x.state = .consumed := hconsumed
          have hlist : x.request = list := hlist.symm
          simp [checkClaimState, hto, howner, hx, hconsumed, hlist,
            requireSettling_committed hc hres hto]
  | request r =>
      obtain ⟨a, ha, hback⟩ := hc.auctioned claim _ r hk howner
      obtain ⟨x, hx, rfl⟩ := request_of_market ha
      cases hto : res.committedTo with
      | none =>
          obtain ⟨e, he⟩ := Reservation.committedTo_eq_none.mp hto
          have hopened : x.state = .opened := (hback.reserved e he).1
          simp [checkClaimState, hto, howner, hx, hopened]
      | some list =>
          have hlist : r = list := (hback.committed list (Reservation.committedTo_eq_some.mp hto)).symm
          simp [checkClaimState, hto, howner, hlist, requireSettling_committed hc hres hto]

theorem checkClaimStateCoherence_ok (hc : l.market.Coherent none) :
    l.checkClaimStateCoherence = .ok () :=
  checkAll_eq_ok.mpr fun _ hx => checkClaimState_ok hc (Slab.mem_iter.mp hx)

end Ledger

-- ============================================================================
-- Runs
-- ============================================================================

namespace Engine

variable {e : Engine} {config : Config}

/-- A reserved claim stands for an active quote or an open request; a committed
    one hangs off a request that has left `opened`, and is that request's own or
    that of a consumed quote of it. -/
def Owned (l : Ledger) (res : Reservation) : Prop :=
  match res.committedTo, res.owner with
  | none, .quote q => ∃ x, l.quote q = some x ∧ x.state = .active
  | none, .request r => ∃ x, l.request r = some x ∧ x.state = .opened
  | some list, owner =>
    (∃ x, l.request list = some x ∧ x.state ≠ .opened) ∧
      (owner = .request list ∨
        ∃ q x, owner = .quote q ∧ l.quote q = some x ∧ x.state = .consumed ∧ x.request = list)

theorem owned_of_coherent {l : Ledger} {claim : ResIdx} {res : Reservation}
    (hc : l.market.Coherent none) (hres : l.reservation claim = some res) : Owned l res := by
  have hk := Ledger.market_claims hres
  unfold Owned
  cases hto : res.committedTo with
  | none =>
      obtain ⟨e, he⟩ := Reservation.committedTo_eq_none.mp hto
      cases howner : res.owner with
      | quote q =>
          obtain ⟨o, leg, ho, -, hback⟩ := hc.offered claim _ q hk howner
          obtain ⟨x, hx, rfl⟩ := Ledger.quote_of_market ho
          exact ⟨x, hx, (hback.reserved e he).1⟩
      | request r =>
          obtain ⟨a, ha, hback⟩ := hc.auctioned claim _ r hk howner
          obtain ⟨x, hx, rfl⟩ := Ledger.request_of_market ha
          exact ⟨x, hx, (hback.reserved e he).1⟩
  | some list =>
      have hs := Reservation.committedTo_eq_some.mp hto
      refine ⟨?_, ?_⟩
      · obtain ⟨a, ha, ⟨n, d, hset⟩ | ⟨hnone, -⟩⟩ := hc.committed claim _ list hk hs
        · obtain ⟨x, hx, rfl⟩ := Ledger.request_of_market ha
          have : x.state = .settling n d := hset
          exact ⟨x, hx, by simp [this]⟩
        · cases hnone
      · cases howner : res.owner with
        | quote q =>
            obtain ⟨o, leg, ho, -, hback⟩ := hc.offered claim _ q hk howner
            obtain ⟨x, hx, rfl⟩ := Ledger.quote_of_market ho
            obtain ⟨hconsumed, hlist⟩ := hback.committed list hs
            exact .inr ⟨q, x, rfl, hx, hconsumed, hlist.symm⟩
        | request r =>
            obtain ⟨a, -, hback⟩ := hc.auctioned claim _ r hk howner
            exact .inl (by rw [hback.committed list hs])

/-- After every command of every run both self-checks pass, every claim is owned
    as its state calls for, and no assertion has failed. -/
theorem checks_of_reachable (h : Reachable config e) :
    e.ledger.checkClaimStateCoherence = .ok () ∧ e.ledger.checkStructuralInvariants = .ok () ∧
      (∀ claim res, e.ledger.reservation claim = some res → Owned e.ledger res) ∧
        e.ledger.sound = true :=
  have hsane := sane_of_reachable h
  ⟨Ledger.checkClaimStateCoherence_ok hsane.healthy.coherent,
    hsane.healthy.intact.checkStructuralInvariants_ok,
    fun _ _ hres => owned_of_coherent hsane.healthy.coherent hres, hsane.sound⟩

/-- A run through a credit, a contract and a request. -/
theorem checks_of_reachable_small :
    (Engine.run ⟨Config.small, Ledger.new Config.small, 0⟩
      [⟨.creditAccount 0 10, 0, 8⟩, ⟨.registerContract 0 1000, 1, 8⟩,
        ⟨.submitRequest 0 9 [⟨0, .yes, 2, 5⟩], 2, 8⟩]).ledger.sound = true :=
  have hnew : Reachable Config.small ⟨Config.small, Ledger.new Config.small, 0⟩ := .new rfl
  (checks_of_reachable (hnew.run _)).2.2.2

end Engine

end RfqSettlement
