/-
  RfqSettlement.Core.Placement

  Where every stored quote stands.

  Between commands a stored quote is active on an open request, the only one of its
  maker on its leg, or consumed on a settling one, the only one on its leg and with
  its claim committed.  `Market.Placed` says so and `ReachableAt.placed` proves it of
  every engine reached while instants never go back.  `Market.Sited` is the part of it
  that does not depend on the clock.
-/

import RfqSettlement.Core.Departures

namespace RfqSettlement

/-- Whether a scope leaves a request as it is. -/
structure Scope.Spares (r : ReqIdx) (scope : Scope) : Prop where
  filling : scope ≠ .filling r
  rejecting : scope ≠ .rejecting r
  resolving : scope ≠ .resolving r

/-- Two offers of one maker on one leg. -/
structure Offer.Rivals (o o' : Offer) : Prop where
  maker : o.maker = o'.maker
  request : o.request = o'.request
  leg : o.leg = o'.leg

theorem Offer.Rivals.symm {o o' : Offer} (h : o.Rivals o') : o'.Rivals o :=
  ⟨h.maker.symm, h.request.symm, h.leg.symm⟩

namespace Market

variable {m m' : Market} {scope : Scope} {now : Nat} {r : ReqIdx} {q : QuoteIdx} {o : Offer}
  {a : Auction}

/-- The claim of `q` is committed to `r`. -/
def Pledged (m : Market) (r : ReqIdx) (q : QuoteIdx) : Prop :=
  ∃ h k, m.claims h = some k ∧ k.owner = .quote q ∧ k.status = .committed r

structure Placed (m : Market) : Prop where
  active : ∀ q o, m.offers q = some o → o.state = .active →
    ∃ a, m.auctions o.request = some a ∧ a.state = .opened
  pledged : ∀ q o, m.offers q = some o → o.state = .consumed → m.Pledged o.request q
  lone : ∀ q q' o o', m.offers q = some o → m.offers q' = some o' → o.state = .active →
    o'.state = .active → o.Rivals o' → q = q'
  winner : ∀ q q' o o', m.offers q = some o → m.offers q' = some o' → o.state = .consumed →
    o'.state = .consumed → o.request = o'.request → o.leg = o'.leg → q = q'

/-- Of `Placed`, what holds whatever the instants were. -/
structure Sited (m : Market) : Prop where
  active : ∀ q o, m.offers q = some o → o.state = .active →
    ∃ a, m.auctions o.request = some a ∧ a.state = .opened
  lone : ∀ q q' o o', m.offers q = some o → m.offers q' = some o' → o.state = .active →
    o'.state = .active → o.Rivals o' → q = q'
  winner : ∀ q q' o o', m.offers q = some o → m.offers q' = some o' → o.state = .consumed →
    o'.state = .consumed → o.request = o'.request → o.leg = o'.leg → q = q'

theorem Placed.sited (hp : m.Placed) : m.Sited := ⟨hp.active, hp.lone, hp.winner⟩

theorem placed_of_none (h : ∀ q, m.offers q = none) : m.Placed := by
  refine ⟨?_, ?_, ?_, ?_⟩ <;> simp [h]

-- ============================================================================
-- What a command leaves
-- ============================================================================

theorem Steps.opened_of_spared (hsteps : Steps now scope m m') (ha : m.auctions r = some a)
    (hopened : a.state = .opened) (hspares : scope.Spares r) :
    ∃ a', m'.auctions r = some a' ∧ a'.state = .opened := by
  obtain ⟨st, hst, heq | hmoves⟩ := hsteps.auction ha
  · exact ⟨_, hst, heq.trans hopened⟩
  · rw [hopened] at hmoves
    cases hmoves with
    | settle h => exact absurd h hspares.filling
    | reject h => exact absurd h hspares.rejecting

theorem Pledged.of_spared (h : m.Pledged r q) (hsteps : Steps now scope m m')
    (hspares : scope.Spares r) : m'.Pledged r q := by
  obtain ⟨c, k, hk, howner, hs⟩ := h
  have hsame : SamePledges r m m' := hsteps.pledged hspares.resolving hspares.filling
  exact ⟨c, k, (hsame.claims c k hs).mpr hk, howner, hs⟩

/-- The offers of spared requests stay where they are; those of `new` have to find their
    place. -/
theorem Sited.extend (new : QuoteIdx → Offer → Prop) (hp : m.Sited) (hsteps : Steps now scope m m')
    (hoffers : ∀ q o, m'.offers q = some o →
      m.offers q = some o ∧ scope.Spares o.request ∨ new q o)
    (hactive : ∀ q o, new q o → o.state = .active →
      (∃ a, m'.auctions o.request = some a ∧ a.state = .opened) ∧
        ∀ q' o', m'.offers q' = some o' → o'.state = .active → o'.Rivals o → q' = q)
    (hconsumed : ∀ q o, new q o → o.state = .consumed →
      ∀ q' o', m'.offers q' = some o' → o'.state = .consumed → o'.request = o.request →
        o'.leg = o.leg → q' = q) : m'.Sited where
  active q o ho hs := by
    rcases hoffers q o ho with ⟨hold, hspares⟩ | hnew
    · obtain ⟨a, ha, hopened⟩ := hp.active q o hold hs
      exact hsteps.opened_of_spared ha hopened hspares
    · exact (hactive q o hnew hs).1
  lone q q' o o' ho ho' hs hs' hrivals := by
    rcases hoffers q o ho with ⟨hold, -⟩ | hnew
    · rcases hoffers q' o' ho' with ⟨hold', -⟩ | hnew'
      · exact hp.lone q q' o o' hold hold' hs hs' hrivals
      · exact (hactive q' o' hnew' hs').2 q o ho hs hrivals
    · exact ((hactive q o hnew hs).2 q' o' ho' hs' hrivals.symm).symm
  winner q q' o o' ho ho' hs hs' hr hl := by
    rcases hoffers q o ho with ⟨hold, -⟩ | hnew
    · rcases hoffers q' o' ho' with ⟨hold', -⟩ | hnew'
      · exact hp.winner q q' o o' hold hold' hs hs' hr hl
      · exact hconsumed q' o' hnew' hs' q o ho hs hr hl
    · exact (hconsumed q o hnew hs q' o' ho' hs' hr.symm hl.symm).symm

/-- A command that brings no offer. -/
theorem Sited.spared (hp : m.Sited) (hsteps : Steps now scope m m')
    (hoffers : ∀ q o, m'.offers q = some o → m.offers q = some o ∧ scope.Spares o.request) :
    m'.Sited :=
  hp.extend (fun _ _ => False) hsteps (fun q o ho => .inl (hoffers q o ho))
    (fun _ _ hnew => hnew.elim) fun _ _ hnew => hnew.elim

/-- Spared offers stay placed; a new one that is consumed has to be pledged. -/
theorem Placed.extend (new : QuoteIdx → Offer → Prop) (hp : m.Placed)
    (hsteps : Steps now scope m m')
    (hoffers : ∀ q o, m'.offers q = some o →
      m.offers q = some o ∧ scope.Spares o.request ∨ new q o)
    (hactive : ∀ q o, new q o → o.state = .active →
      (∃ a, m'.auctions o.request = some a ∧ a.state = .opened) ∧
        ∀ q' o', m'.offers q' = some o' → o'.state = .active → o'.Rivals o → q' = q)
    (hconsumed : ∀ q o, new q o → o.state = .consumed → m'.Pledged o.request q ∧
      ∀ q' o', m'.offers q' = some o' → o'.state = .consumed → o'.request = o.request →
        o'.leg = o.leg → q' = q) : m'.Placed :=
  have hsited : m'.Sited := hp.sited.extend new hsteps hoffers hactive fun q o hnew hs =>
    (hconsumed q o hnew hs).2
  { active := hsited.active
    lone := hsited.lone
    winner := hsited.winner
    pledged := fun q o ho hs => by
      rcases hoffers q o ho with ⟨hold, hspares⟩ | hnew
      · exact (hp.pledged q o hold hs).of_spared hsteps hspares
      · exact (hconsumed q o hnew hs).1 }

/-- A command that brings no offer. -/
theorem Placed.spared (hp : m.Placed) (hsteps : Steps now scope m m')
    (hoffers : ∀ q o, m'.offers q = some o → m.offers q = some o ∧ scope.Spares o.request) :
    m'.Placed :=
  hp.extend (fun _ _ => False) hsteps (fun q o ho => .inl (hoffers q o ho))
    (fun _ _ hnew => hnew.elim) fun _ _ hnew => hnew.elim

-- ============================================================================
-- The winners of a request
-- ============================================================================

/-- A consumed offer's request is settling. -/
theorem Placed.settling (hp : m.Placed) (hc : m.Coherent none) (ho : m.offers q = some o)
    (hs : o.state = .consumed) : ∃ a, m.auctions o.request = some a ∧ a.IsSettling := by
  obtain ⟨c, k, hk, -, hcommitted⟩ := hp.pledged q o ho hs
  obtain ⟨a, ha, hset | ⟨hnone, -⟩⟩ := hc.committed c k o.request hk hcommitted
  · exact ⟨a, ha, hset⟩
  · cases hnone

/-- No two winners share a leg, so there are no more of them than legs. -/
theorem Sited.length_winners (hp : m.Sited) (hc : m.Coherent none)
    (ha : m.auctions r = some a) {qs : List QuoteIdx} (hnodup : qs.Nodup)
    (hqs : ∀ q ∈ qs, ∃ o, m.offers q = some o ∧ o.request = r ∧ o.state = .consumed) :
    qs.length ≤ a.legs.length := by
  have hlegs : (qs.map fun q => ((m.offers q).map Offer.leg).getD 0).Nodup := by
    refine List.Nodup.map_on (fun q hq q' hq' heq => ?_) hnodup
    obtain ⟨o, ho, hr, hs⟩ := hqs q hq
    obtain ⟨o', ho', hr', hs'⟩ := hqs q' hq'
    rw [ho, ho'] at heq
    exact hp.winner q q' o o' ho ho' hs hs' (hr.trans hr'.symm) heq
  have hsub : (qs.map fun q => ((m.offers q).map Offer.leg).getD 0) ⊆ List.range a.legs.length := by
    intro i hi
    obtain ⟨q, hq, rfl⟩ := List.mem_map.mp hi
    obtain ⟨o, ho, hr, -⟩ := hqs q hq
    obtain ⟨leg, hleg, -⟩ := hc.offer q o ho
    rw [legOf, hr, ha, Option.bind_some] at hleg
    rw [ho, List.mem_range]
    exact (List.getElem?_eq_some_iff.mp hleg).1
  have hle := (List.subperm_of_subset hlegs hsub).length_le
  rwa [List.length_map, List.length_range] at hle

end Market

end RfqSettlement
