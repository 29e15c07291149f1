/-
  RfqSettlement.Core.Kindred

  Two ledgers that differ in nothing but claims.

  `Ledger.Kindred` says that two ledgers store the same requests and quotes in the same
  slots, with the same leg chains, the same contracts and the same mirrored balances.
  Whatever moves a claim (reserving, releasing, committing, discharging, reclaiming what
  has expired) is invisible to it; whatever writes a record does the same in both.
-/

import RfqSettlement.Core.Inheritance
import RfqSettlement.Core.SlabTwins

namespace RfqSettlement

namespace Ledger

structure Kindred (l l' : Ledger) : Prop where
  free : ∀ i, (l.account i).map MirroredBalance.free = (l'.account i).map MirroredBalance.free
  contracts : l.contracts = l'.contracts
  requests : Slab.Twins (fun y y' => y.bare = y'.bare) l.requests l'.requests
  quotes : Slab.Twins (fun x x' => x.setClaim none = x'.setClaim none) l.quotes l'.quotes

variable {l l' : Ledger}

theorem Kindred.refl (l : Ledger) : Kindred l l where
  free _ := rfl
  contracts := rfl
  requests := Slab.Twins.refl (fun y : Request => (rfl : y.bare = y.bare)) _
  quotes := Slab.Twins.refl (fun x : Quote => (rfl : x.setClaim none = x.setClaim none)) _

namespace Kindred

theorem symm (h : Kindred l l') : Kindred l' l where
  free i := (h.free i).symm
  contracts := h.contracts.symm
  requests := h.requests.symm fun _ _ hy => hy.symm
  quotes := h.quotes.symm fun _ _ hx => hx.symm

-- ============================================================================
-- Reads
-- ============================================================================

theorem request (h : Kindred l l') (r : ReqIdx) :
    Option.Rel (fun y y' : Request => y.bare = y'.bare) (l.request r) (l'.request r) :=
  h.requests.get r

theorem quote (h : Kindred l l') (q : QuoteIdx) :
    Option.Rel (fun x x' : Quote => x.setClaim none = x'.setClaim none) (l.quote q) (l'.quote q) :=
  h.quotes.get q

theorem sameRecords (h : Kindred l l') : SameRecords l l' where
  quotes q := Entrywise.map_eq (h.symm.quote q) fun _ _ hx => hx
  requests r := Entrywise.map_eq (h.symm.request r) fun _ _ hy => hy
  capacity := h.symm.quotes.capacity

theorem isSome_account (h : Kindred l l') (i : Nat) : (l.account i).isSome = (l'.account i).isSome := by
  have hfree := congrArg Option.isSome (h.free i)
  rwa [Option.isSome_map, Option.isSome_map] at hfree

theorem contract (h : Kindred l l') (c : Nat) : l.contract c = l'.contract c := by
  rw [Ledger.contract, Ledger.contract, h.contracts]

theorem quoteHandleAt (h : Kindred l l') (i : Nat) : l.quoteHandleAt i = l'.quoteHandleAt i :=
  h.quotes.handleAt i

theorem requestHandleAt (h : Kindred l l') (i : Nat) : l.requestHandleAt i = l'.requestHandleAt i :=
  h.requests.handleAt i

theorem requester (h : Kindred l l') (r : ReqIdx) :
    (l.request r).map Request.requester = (l'.request r).map Request.requester :=
  Entrywise.map_eq (h.request r) fun y _ hy => (congrArg Request.requester hy : y.bare.requester = _)

theorem maker (h : Kindred l l') (q : QuoteIdx) : (l.quote q).map Quote.maker = (l'.quote q).map Quote.maker :=
  Entrywise.map_eq (h.quote q) fun x _ hx => (congrArg Quote.maker hx : (x.setClaim none).maker = _)

theorem legOf (h : Kindred l l') (r : ReqIdx) (i : Nat) : l.legOf r i = l'.legOf r i := by
  have hlegs : (l.request r).map Request.legs = (l'.request r).map Request.legs :=
    Entrywise.map_eq (h.request r) fun y _ hy => (congrArg Request.legs hy : y.bare.legs = _)
  have hleg : ∀ l : Ledger, l.legOf r i = ((l.request r).map Request.legs).bind fun legs => legs[i]? := by
    intro l
    rw [Ledger.legOf, Option.bind_map]
    rfl
  rw [hleg, hleg, hlegs]

theorem nextOnLeg (h : Kindred l l') (q : QuoteIdx) : l.nextOnLeg q = l'.nextOnLeg q := by
  have hnext : (l.quote q).map Quote.nextOnLeg = (l'.quote q).map Quote.nextOnLeg :=
    Entrywise.map_eq (h.quote q) fun x _ hx => (congrArg Quote.nextOnLeg hx : (x.setClaim none).nextOnLeg = _)
  rw [Ledger.nextOnLeg, Ledger.nextOnLeg, hnext]

theorem walkLeg (h : Kindred l l') (x : Leg) : (l.walkLeg x).map (fun v => (v.1, v.2.setClaim none)) =
    (l'.walkLeg x).map fun v => (v.1, v.2.setClaim none) := by
  rw [Ledger.walkLeg, Ledger.walkLeg, h.quotes.capacity, ← h.sameRecords.walkFrom]

theorem handles (h : Kindred l l') (x : Leg) : (l.walkLeg x).map Prod.fst = (l'.walkLeg x).map Prod.fst := by
  have hwalk := congrArg (List.map Prod.fst) (h.walkLeg x)
  rwa [List.map_map, List.map_map] at hwalk

theorem standingQuoteOf (h : Kindred l l') (x : Leg) (maker : Nat) :
    l.standingQuoteOf x maker = l'.standingQuoteOf x maker := by
  have hfind : ∀ l : Ledger, l.standingQuoteOf x maker =
      (((l.walkLeg x).map fun v => (v.1, v.2.setClaim none)).find? fun v : QuoteIdx × Quote =>
        decide (v.2.maker = maker ∧ v.2.state = .active)).map Prod.fst := by
    intro l
    rw [List.find?_map, Option.map_map]
    rfl
  rw [hfind, hfind, h.walkLeg]

theorem bestOnLeg (h : Kindred l l') (x : Leg) (now : Nat) : l.bestOnLeg x now = l'.bestOnLeg x now :=
  (h.sameRecords.bestOnLeg x now).symm

-- ============================================================================
-- What moves a claim
-- ============================================================================

theorem debugAssert (h : Kindred l l') (b : Bool) : Kindred l (l'.debugAssert b) :=
  ⟨h.free, h.contracts, h.requests, h.quotes⟩

theorem modifyReservationAt (h : Kindred l l') (i : Nat) (f : Reservation → Reservation) :
    Kindred l (l'.modifyReservationAt i f) :=
  ⟨h.free, h.contracts, h.requests, h.quotes⟩

theorem modifyAccount (h : Kindred l l') (i : Nat) {f : MirroredBalance → MirroredBalance}
    (hf : ∀ m, (f m).free = m.free) : Kindred l (l'.modifyAccount i f) := by
  refine ⟨fun j => (h.free j).trans ?_, h.contracts, h.requests, h.quotes⟩
  simp only [Ledger.account, Ledger.modifyAccount, List.getElem?_modify]
  cases l'.accounts[j]? with
  | none => rfl
  | some m =>
      simp only [Option.map_eq_map, Option.map_some, Option.some.injEq]
      split
      · exact (hf m).symm
      · rfl

theorem modifyRequest_right (h : Kindred l l') (r : ReqIdx) {f : Request → Request}
    (hf : ∀ y, (f y).bare = y.bare) : Kindred l (l'.modifyRequest r f) :=
  ⟨h.free, h.contracts, h.requests.modify_right r fun _ y' hy => hy.trans (hf y').symm, h.quotes⟩

theorem setOwnerClaim (h : Kindred l l') (owner : ResOwner) (claim : Option ResIdx) :
    Kindred l (l'.setOwnerClaim owner claim) := by
  cases owner with
  | quote q =>
      refine debugAssert ?_ _
      exact ⟨h.free, h.contracts, h.requests, h.quotes.modify_right q fun _ _ hx => hx⟩
  | request r =>
      refine debugAssert (h.modifyRequest_right r ?_) _
      intro y
      rfl

theorem withReservations (h : Kindred l l') (reservations : Slab .reservation Reservation) :
    Kindred l { l' with reservations } :=
  ⟨h.free, h.contracts, h.requests, h.quotes⟩

theorem removeReservation (h : Kindred l l') (claim : ResIdx) : Kindred l (l'.removeReservation claim) :=
  (h.withReservations _).debugAssert _

theorem lowerReserved (h : Kindred l l') (i amount : Nat) : Kindred l (l'.lowerReserved i amount) := by
  refine debugAssert (h.modifyAccount i ?_) _
  intro m
  rfl

theorem lowerCommitted (h : Kindred l l') (i amount : Nat) : Kindred l (l'.lowerCommitted i amount) := by
  refine debugAssert (h.modifyAccount i ?_) _
  intro m
  rfl

theorem raiseCommitted (h : Kindred l l') (i amount : Nat) : Kindred l (l'.raiseCommitted i amount) := by
  refine debugAssert (h.modifyAccount i ?_) _
  intro m
  rfl

theorem spliceAfter (h : Kindred l l') (account index after : Nat) :
    Kindred l (l'.spliceAfter account index after) := by
  unfold Ledger.spliceAfter
  dsimp only
  have hspliced := (h.modifyReservationAt after fun r => r.setNext (some index)).modifyReservationAt index
    fun r => (r.setPrev (some after)).setNext
      (((l'.reservationAt after).map fun r => r.neighbours.2).getD none)
  split
  · exact hspliced.modifyReservationAt _ _
  · exact hspliced.modifyAccount account fun _ => rfl

theorem spliceAtHead (h : Kindred l l') (account index : Nat) : Kindred l (l'.spliceAtHead account index) := by
  unfold Ledger.spliceAtHead
  dsimp only
  refine modifyAccount ?_ account fun _ => rfl
  have hspliced := h.modifyReservationAt index fun r => (r.setPrev none).setNext
    (((l'.account account).map fun e => e.expiryHead).getD none)
  split
  · exact hspliced.modifyReservationAt _ _
  · exact hspliced.modifyAccount account fun _ => rfl

theorem linkIntoExpiryChain (h : Kindred l l') (account index expiresAt : Nat) :
    Kindred l (l'.linkIntoExpiryChain account index expiresAt) := by
  unfold Ledger.linkIntoExpiryChain
  split
  · exact h.debugAssert _
  dsimp only
  split
  · exact (h.debugAssert _).spliceAfter _ _ _
  · exact (h.debugAssert _).spliceAtHead _ _

theorem unlinkFromChain (h : Kindred l l') (account index : Nat) :
    Kindred l (l'.unlinkFromChain account index) := by
  unfold Ledger.unlinkFromChain
  split
  · exact h.debugAssert _
  next prev next _ =>
  refine modifyReservationAt ?_ index _
  cases prev with
  | none =>
      have hback := h.modifyAccount account (f := fun e => { e with expiryHead := next }) fun _ => rfl
      cases next with
      | none => exact hback.modifyAccount account fun _ => rfl
      | some i => exact hback.modifyReservationAt i _
  | some prevIndex =>
      have hback := h.modifyReservationAt prevIndex fun r => r.setNext next
      cases next with
      | none => exact hback.modifyAccount account fun _ => rfl
      | some i => exact hback.modifyReservationAt i _

theorem linkIntoCommittedList (h : Kindred l l') (r : ReqIdx) (index : Nat) :
    Kindred l (l'.linkIntoCommittedList r index) := by
  unfold Ledger.linkIntoCommittedList
  dsimp only
  refine modifyRequest_right ?_ r fun _ => rfl
  have hlinked := h.modifyReservationAt index fun v => v.setLinks (.committed r none
    (((l'.request r).map fun y => y.committedHead).getD none))
  split
  · exact hlinked.modifyReservationAt _ _
  · exact hlinked

theorem reclaim (h : Kindred l l') (i : Nat) (claim : ResIdx) (v : Reservation) :
    Kindred l (l'.reclaim i claim v) :=
  (((h.unlinkFromChain i claim.index).lowerReserved i v.amount).setOwnerClaim v.owner none).removeReservation
    claim

theorem releaseExpiredFrom (h : Kindred l l') (account now fuel : Nat) (cursor : Link) (count : Nat) :
    Kindred l (l'.releaseExpiredFrom account now fuel cursor count).2 := by
  induction fuel generalizing l' cursor count with
  | zero =>
      cases cursor with
      | none => exact h
      | some index => exact h.debugAssert _
  | succ fuel ih =>
      cases cursor with
      | none => exact h
      | some index =>
          unfold Ledger.releaseExpiredFrom
          split
          · exact h.debugAssert _
          split
          · exact h.debugAssert _
          · exact h
          split
          · exact h.debugAssert _
          · exact ih (h.reclaim _ _ _) _ _

theorem releaseExpired (h : Kindred l l') (account now : Nat) :
    Kindred l (l'.releaseExpired account now).2 := by
  unfold Ledger.releaseExpired
  split
  · exact h
  · exact h.releaseExpiredFrom account now _ _ 0

theorem commitRelease (h : Kindred l l') (claim : ResIdx) : Kindred l (CommitPhase.release l' claim) := by
  unfold CommitPhase.release
  split
  · exact h.debugAssert _
  split
  · exact h.debugAssert _
  · exact h.reclaim _ _ _

theorem releaseIfHeld (h : Kindred l l') (claim : Option ResIdx) : Kindred l (l'.releaseIfHeld claim) := by
  cases claim with
  | none => exact h
  | some claim => exact h.commitRelease claim

theorem commitCommit (h : Kindred l l') (claim : ResIdx) (r : ReqIdx) (keep : Nat) :
    Kindred l (CommitPhase.commit l' claim r keep) := by
  unfold CommitPhase.commit
  split
  · exact h.debugAssert _
  split
  · exact h.debugAssert _
  · exact (((((h.debugAssert _).unlinkFromChain _ _).modifyReservationAt _ _).linkIntoCommittedList r
      _).lowerReserved _ _).raiseCommitted _ _

theorem dischargeClaim (h : Kindred l l') (claim : ResIdx) (v : Reservation) :
    Kindred l (CommitPhase.dischargeClaim l' claim v) :=
  ((h.lowerCommitted v.account v.amount).setOwnerClaim v.owner none).withReservations _

theorem dischargeFrom (h : Kindred l l') (fuel : Nat) (cursor : Link) (visited : List (ResOwner × Nat)) :
    Kindred l (CommitPhase.dischargeFrom l' fuel cursor visited).2 := by
  induction fuel generalizing l' cursor visited with
  | zero =>
      cases cursor with
      | none => exact h
      | some index => exact h.debugAssert _
  | succ fuel ih =>
      cases cursor with
      | none => exact h
      | some index =>
          unfold CommitPhase.dischargeFrom
          split
          · exact h.debugAssert _
          split
          · exact h
          · exact ih (h.dischargeClaim _ _) _ _

theorem dischargeCommitted (h : Kindred l l') (r : ReqIdx) :
    Kindred l (CommitPhase.dischargeCommitted l' r).2 :=
  (h.dischargeFrom _ _ []).modifyRequest_right r fun _ => rfl

theorem linkClaim (h : Kindred l l') (i : Nat) (claim : ResIdx) (expiresAt : Nat) (owner : ResOwner)
    (reserved : Nat) : Kindred l (l'.linkClaim i claim expiresAt owner reserved) := by
  refine setOwnerClaim (modifyAccount (h.linkIntoExpiryChain i claim.index expiresAt) i ?_) owner _
  intro m
  rfl

/-- What is invisible on the right is invisible on both sides. -/
theorem both {m m' : Ledger} (h : Kindred l l') (hl : Kindred l l' → Kindred l m')
    (hr : Kindred m' l → Kindred m' m) : Kindred m m' :=
  (hr (hl h).symm).symm

end Kindred

end Ledger

end RfqSettlement
