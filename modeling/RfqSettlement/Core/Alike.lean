/-
  RfqSettlement.Core.Alike

  Two ledgers alike to everyone but one account.

  What `a` keeps to itself is its mirrored totals, the amounts of its claims, and of the
  legs of its requests the limit and the selection last presented.  `Ledger.Alike a` says
  that two ledgers differ in nothing else: they store the same requests and quotes in the
  same slots, with the same chains, and the same claims under the same handles.  Every
  operation on claims keeps them so.  An amount only ever moves between the totals of the
  account that holds the claim, so it stays where it was secret.
-/

import RfqSettlement.Core.ClaimWalks
import RfqSettlement.Core.SlabTwins

namespace RfqSettlement

variable {a : Nat}

-- ============================================================================
-- Records
-- ============================================================================

/-- The totals of an account, `own` if it is the one that keeps them to itself. -/
structure MirroredBalance.Alike (own : Prop) (m m' : MirroredBalance) : Prop where
  expiryHead : m.expiryHead = m'.expiryHead
  expiryTail : m.expiryTail = m'.expiryTail
  shown : ¬ own → m = m'

structure Reservation.Alike (a : Nat) (v v' : Reservation) : Prop where
  account : v.account = v'.account
  owner : v.owner = v'.owner
  links : v.links = v'.links
  amount : v.account ≠ a → v.amount = v'.amount

structure Leg.Alike (own : Prop) (x x' : Leg) : Prop where
  contract : x.contract = x'.contract
  side : x.side = x'.side
  size : x.size = x'.size
  quotesHead : x.quotesHead = x'.quotesHead
  quoteCount : x.quoteCount = x'.quoteCount
  shown : ¬ own → x = x'

structure Request.Alike (a : Nat) (y y' : Request) : Prop where
  requester : y.requester = y'.requester
  deadline : y.deadline = y'.deadline
  state : y.state = y'.state
  claim : y.claim = y'.claim
  committedHead : y.committedHead = y'.committedHead
  legs : List.Forall₂ (Leg.Alike (y.requester = a)) y.legs y'.legs

theorem MirroredBalance.Alike.refl {own : Prop} (m : MirroredBalance) : Alike own m m :=
  ⟨rfl, rfl, fun _ => rfl⟩

theorem Leg.Alike.refl {own : Prop} (x : Leg) : Alike own x x :=
  ⟨rfl, rfl, rfl, rfl, rfl, fun _ => rfl⟩

theorem Reservation.Alike.refl (v : Reservation) : Alike a v v := ⟨rfl, rfl, rfl, fun _ => rfl⟩

theorem Request.Alike.refl (y : Request) : Alike a y y :=
  ⟨rfl, rfl, rfl, rfl, rfl, List.forall₂_same.mpr fun x _ => .refl x⟩

namespace Reservation.Alike

variable {v v' : Reservation}

theorem isCommitted (h : Reservation.Alike a v v') : v.isCommitted = v'.isCommitted := by
  rw [Reservation.isCommitted, Reservation.isCommitted, h.links]

theorem isExpiredAt (h : Reservation.Alike a v v') (now : Nat) : v.isExpiredAt now = v'.isExpiredAt now := by
  rw [Reservation.isExpiredAt, Reservation.isExpiredAt, h.links]

theorem neighbours (h : Reservation.Alike a v v') : v.neighbours = v'.neighbours := by
  rw [Reservation.neighbours, Reservation.neighbours, h.links]

theorem setLinks (h : Reservation.Alike a v v') (links : ClaimLinks) :
    Reservation.Alike a (v.setLinks links) (v'.setLinks links) :=
  ⟨h.account, h.owner, rfl, h.amount⟩

theorem setPrev (h : Reservation.Alike a v v') (link : Link) :
    Reservation.Alike a (v.setPrev link) (v'.setPrev link) := by
  unfold Reservation.setPrev
  rw [← h.links]
  cases v.links with
  | reserved => exact h.setLinks _
  | committed => exact h.setLinks _

theorem setNext (h : Reservation.Alike a v v') (link : Link) :
    Reservation.Alike a (v.setNext link) (v'.setNext link) := by
  unfold Reservation.setNext
  rw [← h.links]
  cases v.links with
  | reserved => exact h.setLinks _
  | committed => exact h.setLinks _

end Reservation.Alike

-- ============================================================================
-- Ledgers
-- ============================================================================

namespace Ledger

structure Alike (a : Nat) (l l' : Ledger) : Prop where
  accounts : ∀ i, Option.Rel (MirroredBalance.Alike (i = a)) (l.account i) (l'.account i)
  contracts : l.contracts = l'.contracts
  reservations : Slab.Twins (Reservation.Alike a) l.reservations l'.reservations
  requests : Slab.Twins (Request.Alike a) l.requests l'.requests
  quotes : l.quotes = l'.quotes

variable {l l' : Ledger}

theorem Alike.refl (l : Ledger) : Alike a l l where
  accounts i := by
    cases l.account i with
    | none => exact .none
    | some m => exact .some (.refl m)
  contracts := rfl
  reservations := .refl .refl _
  requests := .refl .refl _
  quotes := rfl

namespace Alike

-- ============================================================================
-- Reads
-- ============================================================================

theorem account_eq (h : Alike a l l') {i : Nat} (hi : i ≠ a) : l.account i = l'.account i := by
  have haccount := h.accounts i
  generalize l.account i = m at haccount ⊢
  generalize l'.account i = m' at haccount ⊢
  cases haccount with
  | none => rfl
  | some hm => exact congrArg some (hm.shown hi)

theorem contract (h : Alike a l l') (c : Nat) : l.contract c = l'.contract c := by
  rw [Ledger.contract, Ledger.contract, h.contracts]

theorem request (h : Alike a l l') (r : ReqIdx) :
    Option.Rel (Request.Alike a) (l.request r) (l'.request r) :=
  h.requests.get r

theorem quote (h : Alike a l l') (q : QuoteIdx) : l.quote q = l'.quote q := by
  rw [Ledger.quote, Ledger.quote, h.quotes]

theorem quoteHandleAt (h : Alike a l l') (i : Nat) : l.quoteHandleAt i = l'.quoteHandleAt i := by
  rw [Ledger.quoteHandleAt, Ledger.quoteHandleAt, h.quotes]

theorem requestHandleAt (h : Alike a l l') (i : Nat) : l.requestHandleAt i = l'.requestHandleAt i :=
  h.requests.handleAt i

theorem reservation (h : Alike a l l') (c : ResIdx) :
    Option.Rel (Reservation.Alike a) (l.reservation c) (l'.reservation c) :=
  h.reservations.get c

theorem reservationAt (h : Alike a l l') (i : Nat) :
    Option.Rel (Reservation.Alike a) (l.reservationAt i) (l'.reservationAt i) :=
  h.reservations.valueAt i

theorem committedHead (h : Alike a l l') (r : ReqIdx) :
    (l.request r).map Request.committedHead = (l'.request r).map Request.committedHead :=
  Entrywise.map_eq (h.request r) fun _ _ hy => hy.committedHead

-- ============================================================================
-- Writes
-- ============================================================================

theorem debugAssert (h : Alike a l l') {b b' : Bool} : Alike a (l.debugAssert b) (l'.debugAssert b') :=
  ⟨h.accounts, h.contracts, h.reservations, h.requests, h.quotes⟩

theorem modifyAccount (h : Alike a l l') (i : Nat) {f f' : MirroredBalance → MirroredBalance}
    (hf : ∀ m m', MirroredBalance.Alike (i = a) m m' → MirroredBalance.Alike (i = a) (f m) (f' m')) :
    Alike a (l.modifyAccount i f) (l'.modifyAccount i f') := by
  refine ⟨fun j => ?_, h.contracts, h.reservations, h.requests, h.quotes⟩
  have haccount := h.accounts j
  simp only [Ledger.account, Ledger.modifyAccount, List.getElem?_modify] at haccount ⊢
  generalize l.accounts[j]? = m at haccount ⊢
  generalize l'.accounts[j]? = m' at haccount ⊢
  cases haccount with
  | none => exact .none
  | some hm =>
      refine .some ?_
      split
      next hij =>
        subst hij
        exact hf _ _ hm
      next => exact hm

theorem modifyStored (h : Alike a l l') (i : Nat) {f f' : Reservation → Reservation}
    (hf : ∀ v v', l.reservationAt i = some v → Reservation.Alike a v v' → Reservation.Alike a (f v) (f' v')) :
    Alike a (l.modifyReservationAt i f) (l'.modifyReservationAt i f') :=
  ⟨h.accounts, h.contracts, h.reservations.modifyAt i hf, h.requests, h.quotes⟩

theorem modifyReservationAt (h : Alike a l l') (i : Nat) {f f' : Reservation → Reservation}
    (hf : ∀ v v', Reservation.Alike a v v' → Reservation.Alike a (f v) (f' v')) :
    Alike a (l.modifyReservationAt i f) (l'.modifyReservationAt i f') :=
  h.modifyStored i fun v v' _ => hf v v'

theorem modifyQuote (h : Alike a l l') (q : QuoteIdx) (f : Quote → Quote) :
    Alike a (l.modifyQuote q f) (l'.modifyQuote q f) :=
  ⟨h.accounts, h.contracts, h.reservations, h.requests, congrArg (Slab.modify · q f) h.quotes⟩

theorem modifyRecord (h : Alike a l l') (r : ReqIdx) {f f' : Request → Request}
    (hf : ∀ y y', l.request r = some y → Request.Alike a y y' → Request.Alike a (f y) (f' y')) :
    Alike a (l.modifyRequest r f) (l'.modifyRequest r f') :=
  ⟨h.accounts, h.contracts, h.reservations, h.requests.modify r hf, h.quotes⟩

theorem modifyRequest (h : Alike a l l') (r : ReqIdx) {f f' : Request → Request}
    (hf : ∀ y y', Request.Alike a y y' → Request.Alike a (f y) (f' y')) :
    Alike a (l.modifyRequest r f) (l'.modifyRequest r f') :=
  h.modifyRecord r fun y y' _ => hf y y'

/-- A request whose legs stay as they are. -/
theorem setRequest (h : Alike a l l') (r : ReqIdx) {f : Request → Request}
    (hlegs : ∀ y, (f y).legs = y.legs ∧ (f y).requester = y.requester)
    (hf : ∀ y y', Request.Alike a y y' → (f y).deadline = (f y').deadline ∧ (f y).state = (f y').state ∧
      (f y).claim = (f y').claim ∧ (f y).committedHead = (f y').committedHead) :
    Alike a (l.modifyRequest r f) (l'.modifyRequest r f) := by
  refine h.modifyRequest r fun y y' hy => ?_
  obtain ⟨hdeadline, hstate, hclaim, hhead⟩ := hf y y' hy
  refine ⟨?_, hdeadline, hstate, hclaim, hhead, ?_⟩
  · rw [(hlegs y).2, (hlegs y').2]
    exact hy.requester
  · rw [(hlegs y).1, (hlegs y').1, (hlegs y).2]
    exact hy.legs

theorem setState (h : Alike a l l') (r : ReqIdx) (state : RequestState) :
    Alike a (l.modifyRequest r fun y => y.setState state) (l'.modifyRequest r fun y => y.setState state) :=
  h.setRequest r (fun _ => ⟨rfl, rfl⟩) fun _ _ hy => ⟨hy.deadline, rfl, hy.claim, hy.committedHead⟩

theorem setClaim (h : Alike a l l') (r : ReqIdx) (claim : Option ResIdx) :
    Alike a (l.modifyRequest r fun y => y.setClaim claim) (l'.modifyRequest r fun y => y.setClaim claim) :=
  h.setRequest r (fun _ => ⟨rfl, rfl⟩) fun _ _ hy => ⟨hy.deadline, hy.state, rfl, hy.committedHead⟩

theorem lowerReserved (h : Alike a l l') (i : Nat) {x x' : Nat} (hx : i ≠ a → x = x') :
    Alike a (l.lowerReserved i x) (l'.lowerReserved i x') := by
  refine debugAssert (modifyAccount h i ?_)
  intro m m' hm
  exact ⟨hm.expiryHead, hm.expiryTail, fun hi => by rw [hm.shown hi, hx hi]⟩

theorem lowerCommitted (h : Alike a l l') (i : Nat) {x x' : Nat} (hx : i ≠ a → x = x') :
    Alike a (l.lowerCommitted i x) (l'.lowerCommitted i x') := by
  refine debugAssert (modifyAccount h i ?_)
  intro m m' hm
  exact ⟨hm.expiryHead, hm.expiryTail, fun hi => by rw [hm.shown hi, hx hi]⟩

theorem raiseCommitted (h : Alike a l l') (i : Nat) {x x' : Nat} (hx : i ≠ a → x = x') :
    Alike a (l.raiseCommitted i x) (l'.raiseCommitted i x') := by
  refine debugAssert (modifyAccount h i ?_)
  intro m m' hm
  exact ⟨hm.expiryHead, hm.expiryTail, fun hi => by rw [hm.shown hi, hx hi]⟩

theorem removeReservation (h : Alike a l l') (c : ResIdx) :
    Alike a (l.removeReservation c) (l'.removeReservation c) := by
  refine debugAssert ?_
  exact ⟨h.accounts, h.contracts, (h.reservations.remove c).2, h.requests, h.quotes⟩

theorem setOwnerClaim (h : Alike a l l') (owner : ResOwner) (claim : Option ResIdx) :
    Alike a (l.setOwnerClaim owner claim) (l'.setOwnerClaim owner claim) := by
  cases owner with
  | quote q => exact debugAssert (h.modifyQuote q _)
  | request r =>
      exact debugAssert (h.setClaim r claim)

-- ============================================================================
-- Chains
-- ============================================================================

/-- Where a claim goes on a chain is read off the expiries alone. -/
theorem insertionPoint (h : Alike a l l') (expiresAt fuel : Nat) (cursor : Link) :
    l.insertionPoint expiresAt fuel cursor = l'.insertionPoint expiresAt fuel cursor := by
  induction fuel generalizing cursor with
  | zero => cases cursor <;> rfl
  | succ fuel ih =>
      cases cursor with
      | none => rfl
      | some candidate =>
          rw [Ledger.insertionPoint, Ledger.insertionPoint]
          have hv := h.reservationAt candidate
          generalize l.reservationAt candidate = v at hv
          generalize l'.reservationAt candidate = v' at hv
          cases hv with
          | none => rfl
          | some hv =>
              dsimp only
              rw [hv.links]
              split
              · rfl
              · rw [ih]

theorem spliceAfter (h : Alike a l l') (account index after : Nat) :
    Alike a (l.spliceAfter account index after) (l'.spliceAfter account index after) := by
  unfold Ledger.spliceAfter
  have hnext : ((l.reservationAt after).map fun r => r.neighbours.2) =
      (l'.reservationAt after).map fun r => r.neighbours.2 :=
    Entrywise.map_eq (h.reservationAt after) fun _ _ hv => congrArg Prod.snd hv.neighbours
  rw [hnext]
  generalize ((l'.reservationAt after).map fun r => r.neighbours.2).getD none = next
  have hspliced := (h.modifyReservationAt after fun _ _ hv => hv.setNext (some index)).modifyReservationAt
    index fun _ _ hv => (hv.setPrev (some after)).setNext next
  cases next with
  | none => exact hspliced.modifyAccount account fun m m' hm =>
      ⟨hm.expiryHead, rfl, fun hi => by rw [hm.shown hi]⟩
  | some next => exact hspliced.modifyReservationAt next fun _ _ hv => hv.setPrev (some index)

theorem spliceAtHead (h : Alike a l l') (account index : Nat) :
    Alike a (l.spliceAtHead account index) (l'.spliceAtHead account index) := by
  unfold Ledger.spliceAtHead
  have hhead : ((l.account account).map fun e => e.expiryHead) =
      (l'.account account).map fun e => e.expiryHead :=
    Entrywise.map_eq (h.accounts account) fun _ _ hm => hm.expiryHead
  rw [hhead]
  generalize ((l'.account account).map fun e => e.expiryHead).getD none = head
  have hspliced := h.modifyReservationAt index fun _ _ hv => (hv.setPrev none).setNext head
  refine modifyAccount ?_ account fun m m' hm => ⟨rfl, hm.expiryTail, fun hi => by rw [hm.shown hi]⟩
  cases head with
  | none => exact hspliced.modifyAccount account fun m m' hm =>
      ⟨hm.expiryHead, rfl, fun hi => by rw [hm.shown hi]⟩
  | some head => exact hspliced.modifyReservationAt head fun _ _ hv => hv.setPrev (some index)

theorem linkIntoExpiryChain (h : Alike a l l') (account index expiresAt : Nat) :
    Alike a (l.linkIntoExpiryChain account index expiresAt)
      (l'.linkIntoExpiryChain account index expiresAt) := by
  unfold Ledger.linkIntoExpiryChain
  have haccount := h.accounts account
  generalize l.account account = m at haccount
  generalize l'.account account = m' at haccount
  cases haccount with
  | none => exact h.debugAssert
  | some hm =>
      dsimp only
      rw [h.insertionPoint, h.reservations.capacity, hm.expiryTail]
      split
      · exact h.debugAssert.spliceAfter _ _ _
      · exact h.debugAssert.spliceAtHead _ _

theorem unlinkFromChain (h : Alike a l l') (account index : Nat) :
    Alike a (l.unlinkFromChain account index) (l'.unlinkFromChain account index) := by
  unfold Ledger.unlinkFromChain
  have hneighbours : (l.reservationAt index).map Reservation.neighbours =
      (l'.reservationAt index).map Reservation.neighbours :=
    Entrywise.map_eq (h.reservationAt index) fun _ _ hv => hv.neighbours
  rw [hneighbours]
  cases (l'.reservationAt index).map Reservation.neighbours with
  | none => exact h.debugAssert
  | some ends =>
      obtain ⟨prev, next⟩ := ends
      refine modifyReservationAt ?_ index fun _ _ hv => (hv.setPrev none).setNext none
      cases prev with
      | none =>
          have hback := h.modifyAccount account fun m m' hm =>
            (⟨rfl, hm.expiryTail, fun hi => by rw [hm.shown hi]⟩ : MirroredBalance.Alike (account = a)
              { m with expiryHead := next } { m' with expiryHead := next })
          cases next with
          | none => exact hback.modifyAccount account fun m m' hm =>
              ⟨hm.expiryHead, rfl, fun hi => by rw [hm.shown hi]⟩
          | some nextIndex => exact hback.modifyReservationAt nextIndex fun _ _ hv => hv.setPrev none
      | some prevIndex =>
          have hback := h.modifyReservationAt prevIndex fun _ _ hv => hv.setNext next
          cases next with
          | none => exact hback.modifyAccount account fun m m' hm =>
              ⟨hm.expiryHead, rfl, fun hi => by rw [hm.shown hi]⟩
          | some nextIndex => exact hback.modifyReservationAt nextIndex fun _ _ hv => hv.setPrev (some prevIndex)

theorem linkIntoCommittedList (h : Alike a l l') (r : ReqIdx) (index : Nat) :
    Alike a (l.linkIntoCommittedList r index) (l'.linkIntoCommittedList r index) := by
  unfold Ledger.linkIntoCommittedList
  rw [h.committedHead r]
  generalize ((l'.request r).map fun y => y.committedHead).getD none = head
  have hlinked := h.modifyReservationAt index fun _ _ hv => hv.setLinks (.committed r none head)
  refine setRequest ?_ r (fun _ => ⟨rfl, rfl⟩) fun _ _ hy => ⟨hy.deadline, hy.state, hy.claim, rfl⟩
  cases head with
  | none => exact hlinked
  | some headIndex => exact hlinked.modifyReservationAt headIndex fun _ _ hv => hv.setPrev (some index)

end Alike

end Ledger

end RfqSettlement
