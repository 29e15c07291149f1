/-
  RfqSettlement.Core.Intact

  The ledger's invariant, and what the chain plumbing does to it.

  `Wired` is the mechanical half: valid slabs and chains threaded through them,
  one claim possibly loose.  `Intact` adds a balanced book.
  The plumbing only relinks: `Relinks` says that a ledger differs from another
  in its links alone, so a plumbing step has one lemma for its links and one
  `Relinks` fact for everything else.
-/

import RfqSettlement.Core.Balance
import RfqSettlement.Core.Links

namespace RfqSettlement

namespace Ledger

-- ============================================================================
-- The invariant
-- ============================================================================

/-- Valid slabs, and threaded chains through them. -/
structure Wired (l : Ledger) (loose : Link) : Prop where
  reservations : l.reservations.Valid
  requests : l.requests.Valid
  quotes : l.quotes.Valid
  threads : ∃ E C, l.links.Threads loose E C

/-- The ledger's invariant. -/
structure Intact (l : Ledger) : Prop where
  wired : l.Wired none
  balanced : l.book.Balanced

/-- What no operation on claims touches; `sound` is here because no assertion
    fails on the way. -/
structure Kept (l l' : Ledger) : Prop where
  contracts : l'.contracts = l.contracts
  capacity : l'.reservations.capacity = l.reservations.capacity
  quoteCapacity : l'.quotes.capacity = l.quotes.capacity
  requestGenerations : l'.requests.generations = l.requests.generations
  requestRoom : l'.requests.freeHead = l.requests.freeHead
  quoteRoom : l'.quotes.freeHead = l.quotes.freeHead
  sound : l'.sound = l.sound

theorem Kept.refl (l : Ledger) : Kept l l := ⟨rfl, rfl, rfl, rfl, rfl, rfl, rfl⟩

theorem Kept.trans {l l' l'' : Ledger} (h : Kept l l') (h' : Kept l' l'') : Kept l l'' where
  contracts := h'.contracts.trans h.contracts
  capacity := h'.capacity.trans h.capacity
  quoteCapacity := h'.quoteCapacity.trans h.quoteCapacity
  requestGenerations := h'.requestGenerations.trans h.requestGenerations
  requestRoom := h'.requestRoom.trans h.requestRoom
  quoteRoom := h'.quoteRoom.trans h.quoteRoom
  sound := h'.sound.trans h.sound

/-- What opening or closing a record leaves alone. -/
structure Sized (l l' : Ledger) : Prop where
  contracts : l'.contracts = l.contracts
  capacity : l'.reservations.capacity = l.reservations.capacity
  quoteCapacity : l'.quotes.capacity = l.quotes.capacity
  requestGenerations : l'.requests.generations = l.requests.generations
  sound : l'.sound = l.sound

theorem Kept.sized {l l' : Ledger} (h : Kept l l') : Sized l l' :=
  ⟨h.contracts, h.capacity, h.quoteCapacity, h.requestGenerations, h.sound⟩

theorem Sized.refl (l : Ledger) : Sized l l := ⟨rfl, rfl, rfl, rfl, rfl⟩

theorem Sized.trans {l l' l'' : Ledger} (h : Sized l l') (h' : Sized l' l'') : Sized l l'' :=
  ⟨h'.contracts.trans h.contracts, h'.capacity.trans h.capacity,
    h'.quoteCapacity.trans h.quoteCapacity, h'.requestGenerations.trans h.requestGenerations,
    h'.sound.trans h.sound⟩

/-- `l'` is `l` with links rewritten. -/
structure Relinks (l l' : Ledger) : Prop where
  kept : Kept l l'
  book : l'.book = l.book
  reservations : l.reservations.Valid → l'.reservations.Valid
  requests : l.requests.Valid → l'.requests.Valid
  quotes : l'.quotes = l.quotes
  room : l'.reservations.freeHead = l.reservations.freeHead

theorem Relinks.trans {l l' l'' : Ledger} (h : Relinks l l') (h' : Relinks l' l'') :
    Relinks l l'' where
  kept := h.kept.trans h'.kept
  book := h'.book.trans h.book
  reservations hv := h'.reservations (h.reservations hv)
  requests hv := h'.requests (h.requests hv)
  quotes := h'.quotes.trans h.quotes
  room := h'.room.trans h.room

variable {l : Ledger} {account index a e : Nat} {loose : Link}

theorem freeHead_modify {kind : SlabKind} {α : Type} {s : Slab kind α} {handle : Handle kind}
    {f : α → α} : (s.modify handle f).freeHead = s.freeHead := by
  cases h : s.get handle with
  | none => rw [Slab.modify_of_stale h]
  | some v => rw [Slab.modify_of_get h]

theorem freeHead_modifyAt {kind : SlabKind} {α : Type} {s : Slab kind α} {i : Nat} {f : α → α} :
    (s.modifyAt i f).freeHead = s.freeHead := by
  unfold Slab.modifyAt
  split
  · exact freeHead_modify
  · rfl

theorem relinks_modifyReservationAt {f : Reservation → Reservation}
    (hf : ∀ r, (f r).toClaim = r.toClaim) : Relinks l (l.modifyReservationAt index f) where
  kept := ⟨rfl, Slab.length_modifyAt, rfl, rfl, rfl, rfl, rfl⟩
  book := book_modifyReservationAt hf
  reservations hv := hv.modifyAt
  requests hv := hv
  quotes := rfl
  room := freeHead_modifyAt

theorem relinks_modifyAccount {f : MirroredBalance → MirroredBalance}
    (hf : ∀ m, (f m).totals = m.totals) : Relinks l (l.modifyAccount account f) where
  kept := ⟨rfl, rfl, rfl, rfl, rfl, rfl, rfl⟩
  book := book_modifyAccount_of_totals hf
  reservations hv := hv
  requests hv := hv
  quotes := rfl
  room := rfl

/-- What a relinked ledger still owes is its threads. -/
theorem Wired.relinks {l' : Ledger} {loose' : Link} (h : l.Wired loose) (hr : Relinks l l')
    (ht : ∃ E C, l'.links.Threads loose' E C) : l'.Wired loose' where
  reservations := hr.reservations h.reservations
  requests := hr.requests h.requests
  quotes := hr.quotes ▸ h.quotes
  threads := ht

-- ============================================================================
-- Pointer writes, as edits of one account's chain
-- ============================================================================

theorem isSome_ends : (l.links.ends a).isSome = (l.account a).isSome := by
  simp [links]

theorem links_setNext (account : Nat) {n : Link} :
    (l.modifyReservationAt index fun r => r.setNext n).links =
      l.links.withChain account ((l.links.chain account).setNext index n) := by
  rw [links_modifyReservationAt (fun r => r.toClaim_setNext n) (fun x => (x.1, n))
    (fun r => r.neighbours_setNext n)]
  conv_lhs => rw [← LinkView.withChain_chain (v := l.links) account]
  rfl

theorem links_setPrev (account : Nat) {p : Link} :
    (l.modifyReservationAt index fun r => r.setPrev p).links =
      l.links.withChain account ((l.links.chain account).setPrev index p) := by
  rw [links_modifyReservationAt (fun r => r.toClaim_setPrev p) (fun x => (p, x.2))
    (fun r => r.neighbours_setPrev p)]
  conv_lhs => rw [← LinkView.withChain_chain (v := l.links) account]
  rfl

theorem links_setHead {n : Link} :
    (l.modifyAccount account fun e => { e with expiryHead := n }).links =
      l.links.withChain account { l.links.chain account with head := n } := by
  rw [links_modifyAccount (fun x => (n, x.2)) fun _ => rfl]
  ext1
  case ends =>
    funext a
    simp only [LinkView.withChain, LinkView.chain]
    split
    next heq =>
      subst heq
      cases l.links.ends a <;> rfl
    next => rfl
  all_goals rfl

theorem links_setTail {n : Link} :
    (l.modifyAccount account fun e => { e with expiryTail := n }).links =
      l.links.withChain account { l.links.chain account with tail := n } := by
  rw [links_modifyAccount (fun x => (x.1, n)) fun _ => rfl]
  ext1
  case ends =>
    funext a
    simp only [LinkView.withChain, LinkView.chain]
    split
    next heq =>
      subst heq
      cases l.links.ends a <;> rfl
    next => rfl
  all_goals rfl

/-- Both pointers of one entry written at once. -/
theorem links_setBoth (account : Nat) {p n : Link} :
    (l.modifyReservationAt index fun r => (r.setPrev p).setNext n).links =
      l.links.withChain account
        (((l.links.chain account).setPrev index p).setNext index n) := by
  rw [links_modifyReservationAt
    (fun r => ((r.setPrev p).toClaim_setNext n).trans (r.toClaim_setPrev p)) (fun _ => (p, n))
    (fun r => by rw [Reservation.neighbours_setNext, Reservation.neighbours_setPrev])]
  ext1
  case node =>
    funext i
    simp only [LinkView.withChain, LinkView.chain, Intrusive.Chain.setNext,
      Intrusive.Chain.setPrev]
    split <;> simp [Function.comp_def]
  case ends =>
    have h := congrArg LinkView.ends (LinkView.withChain_chain (v := l.links) account)
    exact h.symm
  all_goals rfl

theorem relinks_setPrev {p : Link} :
    Relinks l (l.modifyReservationAt index fun r => r.setPrev p) :=
  relinks_modifyReservationAt fun r => r.toClaim_setPrev p

theorem relinks_setNext {n : Link} :
    Relinks l (l.modifyReservationAt index fun r => r.setNext n) :=
  relinks_modifyReservationAt fun r => r.toClaim_setNext n

theorem relinks_setBoth {p n : Link} :
    Relinks l (l.modifyReservationAt index fun r => (r.setPrev p).setNext n) :=
  relinks_modifyReservationAt fun r =>
    ((r.setPrev p).toClaim_setNext n).trans (r.toClaim_setPrev p)

theorem relinks_setHead {n : Link} :
    Relinks l (l.modifyAccount account fun e => { e with expiryHead := n }) :=
  relinks_modifyAccount fun _ => rfl

theorem relinks_setTail {n : Link} :
    Relinks l (l.modifyAccount account fun e => { e with expiryTail := n }) :=
  relinks_modifyAccount fun _ => rfl

-- ============================================================================
-- Unlinking
-- ============================================================================

theorem links_unlinkFromChain (hindex : (l.reservationAt index).isSome)
    (ha : (l.account account).isSome) :
    (l.unlinkFromChain account index).links =
      l.links.withChain account ((l.links.chain account).unlink index) := by
  obtain ⟨r, hr⟩ := Option.isSome_iff_exists.mp hindex
  have hends : (l.links.ends account).isSome := by rwa [isSome_ends]
  have hnode : (l.links.chain account).node index = some r.neighbours := by
    simp [LinkView.chain, links, hr]
  unfold unlinkFromChain Intrusive.Chain.unlink
  rw [hr, Option.map_some, hnode]
  generalize r.neighbours = nb
  obtain ⟨prev, next⟩ := nb
  cases prev with
  | none =>
      cases next with
      | none =>
          rw [links_setBoth account, links_setTail, links_setHead]
          simp only [LinkView.withChain_withChain, LinkView.chain_withChain hends]
      | some n =>
          rw [links_setBoth account, links_setPrev account, links_setHead]
          simp only [LinkView.withChain_withChain, LinkView.chain_withChain hends]
  | some p =>
      cases next with
      | none =>
          rw [links_setBoth account, links_setTail, links_setNext account]
          simp only [LinkView.withChain_withChain, LinkView.chain_withChain hends]
      | some n =>
          rw [links_setBoth account, links_setPrev account,
            links_setNext account]
          simp only [LinkView.withChain_withChain, LinkView.chain_withChain hends]

theorem relinks_unlinkFromChain (hindex : (l.reservationAt index).isSome) :
    Relinks l (l.unlinkFromChain account index) := by
  obtain ⟨r, hr⟩ := Option.isSome_iff_exists.mp hindex
  unfold unlinkFromChain
  rw [hr, Option.map_some]
  generalize r.neighbours = nb
  obtain ⟨prev, next⟩ := nb
  cases prev with
  | none =>
      cases next with
      | none => exact (relinks_setHead.trans relinks_setTail).trans relinks_setBoth
      | some n => exact (relinks_setHead.trans relinks_setPrev).trans relinks_setBoth
  | some p =>
      cases next with
      | none => exact (relinks_setNext.trans relinks_setTail).trans relinks_setBoth
      | some n => exact (relinks_setNext.trans relinks_setPrev).trans relinks_setBoth

/-- Unlinking a reserved claim leaves it loose, and nothing else changed. -/
theorem Wired.unlink {r : Reservation} (h : l.Wired none) (hr : l.reservationAt index = some r)
    (hs : r.toClaim.status = .reserved e) (ha : (l.account r.account).isSome) :
    (l.unlinkFromChain r.account index).Wired (some index) := by
  have hindex : (l.reservationAt index).isSome := by simp [hr]
  obtain ⟨E, C, ht⟩ := h.threads
  have hk : l.links.claim index = some r.toClaim := by simp [links, hr]
  have hi : index ∈ E r.account := (ht.expiry_mem _ _).mpr ⟨by simp, _, e, hk, rfl, hs⟩
  obtain ⟨xs, ys, hE⟩ := List.append_of_mem hi
  refine h.relinks (relinks_unlinkFromChain hindex)
    ⟨Function.update E r.account (xs ++ ys), C, ?_⟩
  rw [links_unlinkFromChain hindex ha]
  exact ht.unlink _ (by rwa [isSome_ends]) hE

-- ============================================================================
-- Linking into an expiry chain
-- ============================================================================

theorem links_spliceAfter {after : Nat} (ha : (l.account account).isSome) :
    (l.spliceAfter account index after).links =
      l.links.withChain account ((l.links.chain account).spliceAfter index after) := by
  have hends : (l.links.ends account).isSome := by rwa [isSome_ends]
  have hnext : ((l.reservationAt after).map fun r => r.neighbours.2) =
      ((l.links.chain account).node after).map Prod.snd := by
    simp only [LinkView.chain, links, Option.map_map]
    rfl
  unfold spliceAfter Intrusive.Chain.spliceAfter
  rw [hnext]
  generalize (((l.links.chain account).node after).map Prod.snd).getD none = next
  cases next with
  | none =>
      simp only
      rw [links_setTail, links_setBoth account, links_setNext account]
      simp only [LinkView.withChain_withChain, LinkView.chain_withChain hends]
  | some n =>
      simp only
      rw [links_setPrev account, links_setBoth account,
        links_setNext account]
      simp only [LinkView.withChain_withChain, LinkView.chain_withChain hends]

theorem relinks_spliceAfter {after : Nat} : Relinks l (l.spliceAfter account index after) := by
  unfold spliceAfter
  generalize ((l.reservationAt after).map fun r => r.neighbours.2).getD none = next
  cases next with
  | none => exact (relinks_setNext.trans relinks_setBoth).trans relinks_setTail
  | some n => exact (relinks_setNext.trans relinks_setBoth).trans relinks_setPrev

theorem links_spliceAtHead (ha : (l.account account).isSome) :
    (l.spliceAtHead account index).links =
      l.links.withChain account ((l.links.chain account).spliceHead index) := by
  have hends : (l.links.ends account).isSome := by rwa [isSome_ends]
  have hhead : ((l.account account).map fun e => e.expiryHead).getD none =
      (l.links.chain account).head := by
    simp only [LinkView.chain, links, Option.map_map]
    rfl
  unfold spliceAtHead Intrusive.Chain.spliceHead
  rw [hhead]
  generalize hc : (l.links.chain account).head = head
  cases head with
  | none =>
      simp only
      rw [links_setHead, links_setTail, links_setBoth account]
      simp only [LinkView.withChain_withChain, LinkView.chain_withChain hends]
  | some h =>
      simp only
      rw [links_setHead, links_setPrev account, links_setBoth account]
      simp only [LinkView.withChain_withChain, LinkView.chain_withChain hends]

theorem relinks_spliceAtHead : Relinks l (l.spliceAtHead account index) := by
  unfold spliceAtHead
  generalize ((l.account account).map fun e => e.expiryHead).getD none = head
  cases head with
  | none => exact (relinks_setBoth.trans relinks_setTail).trans relinks_setHead
  | some n => exact (relinks_setBoth.trans relinks_setPrev).trans relinks_setHead

/-- A chain is no longer than the slab. -/
theorem length_le_capacity {is : List Nat} (hnodup : is.Nodup)
    (hmem : ∀ i ∈ is, (l.reservationAt i).isSome) : is.length ≤ l.reservations.capacity := by
  have hsub : is ⊆ List.range l.reservations.capacity := by
    intro i hi
    obtain ⟨r, hr⟩ := Option.isSome_iff_exists.mp (hmem i hi)
    obtain ⟨handle, rfl, hget⟩ := Slab.valueAt_eq_some.mp hr
    exact List.mem_range.mpr (Slab.length_of_get hget)
  simpa using (List.subperm_of_subset hnodup hsub).length_le

/-- The reserved claim at an index of an expiry chain. -/
theorem reservationAt_of_mem {E : Nat → List Nat} {C : ReqIdx → List Nat} {i : Nat}
    (h : l.links.Threads loose E C) (hi : i ∈ E a) :
    ∃ r e prev next, l.reservationAt i = some r ∧ r.account = a ∧
      r.links = .reserved e prev next ∧ l.links.expiry i = e := by
  obtain ⟨k, e, hk, hka, hks⟩ := h.claim_of_mem hi
  obtain ⟨r, hr, rfl⟩ := Option.map_eq_some_iff.mp hk
  obtain ⟨account, amount, owner, links⟩ := r
  cases links with
  | reserved e' prev next =>
      exact ⟨_, e', prev, next, hr, hka, rfl, LinkView.expiry_eq hk rfl⟩
  | committed => cases hks

/-- The walk back from the tail stops behind the last entry that does not expire
    later. -/
theorem insertionPoint_spec {E : Nat → List Nat} {C : ReqIdx → List Nat}
    (h : l.links.Threads loose E C) (hchain : (l.links.chain a).Holds (E a)) (fuel : Nat)
    (xs ys : List Nat) (hE : E a = xs ++ ys) (hys : ∀ j ∈ ys, e < l.links.expiry j)
    (hfuel : xs.length ≤ fuel) :
    ∃ xs' ys', E a = xs' ++ ys' ∧ l.links.Cut e xs' ys' ∧
      l.insertionPoint e fuel xs.getLast? = (xs'.getLast?, true) := by
  induction fuel generalizing xs ys with
  | zero =>
      obtain rfl : xs = [] := List.eq_nil_of_length_eq_zero (by omega)
      exact ⟨[], ys, hE, ⟨by simp, hys⟩, by simp [insertionPoint]⟩
  | succ fuel ih =>
      rcases xs.eq_nil_or_concat' with rfl | ⟨xs, x, rfl⟩
      · exact ⟨[], ys, hE, ⟨by simp, hys⟩, by simp [insertionPoint]⟩
      have hx : x ∈ E a := by simp [hE]
      obtain ⟨r, theirs, prev, next, hr, -, hlinks, hexpiry⟩ := reservationAt_of_mem h hx
      have hprev : prev = xs.getLast? := by
        have hseg := hchain.segment
        rw [hE, List.append_assoc, List.singleton_append] at hseg
        have hnode : (l.links.chain a).node x = some r.neighbours := by
          simp [LinkView.chain, links, hr]
        rw [hseg.node_eq] at hnode
        simp only [Reservation.neighbours, hlinks, Option.or_none, Option.some.injEq,
          Prod.mk.injEq] at hnode
        exact hnode.1.symm
      rw [List.getLast?_concat]
      simp only [insertionPoint, hr, hlinks]
      by_cases hle : theirs ≤ e
      · refine ⟨xs ++ [x], ys, hE, ⟨?_, hys⟩, by simp [hle]⟩
        have hsorted := h.sorted a
        rw [hE, List.pairwise_append, List.pairwise_append] at hsorted
        intro j hj
        rcases List.mem_append.mp hj with hj | hj
        · have := hsorted.1.2.2 j hj x (by simp)
          omega
        · rw [List.mem_singleton.mp hj]
          omega
      · rw [if_neg hle, hprev]
        refine ih xs (x :: ys) (by simp [hE]) ?_ (by simpa using hfuel)
        intro j hj
        rcases List.mem_cons.mp hj with rfl | hj
        · omega
        · exact hys j hj

theorem relinks_linkIntoExpiryChain (ha : (l.account account).isSome)
    (hok : ∀ m, l.account account = some m →
      (l.insertionPoint e l.reservations.capacity m.expiryTail).2 = true) :
    Relinks l (l.linkIntoExpiryChain account index e) := by
  obtain ⟨m, hm⟩ := Option.isSome_iff_exists.mp ha
  simp only [linkIntoExpiryChain, hm, debugAssert_of_true (hok m hm)]
  split
  · exact relinks_spliceAfter
  · exact relinks_spliceAtHead

/-- Linking the loose claim into its account's chain moves links and no committed list. -/
theorem threads_linkIntoExpiryChain {r : Reservation} {E : Nat → List Nat} {C : ReqIdx → List Nat}
    (ht : l.links.Threads (some index) E C) (hr : l.reservationAt index = some r)
    (hs : r.toClaim.status = .reserved e) (ha : (l.account r.account).isSome) :
    Relinks l (l.linkIntoExpiryChain r.account index e) ∧
      (l.linkIntoExpiryChain r.account index e).links.claim = l.links.claim ∧
      ∃ E', (l.linkIntoExpiryChain r.account index e).links.Threads none E' C := by
  obtain ⟨m, hm⟩ := Option.isSome_iff_exists.mp ha
  have hends : (l.links.ends r.account).isSome := by rwa [isSome_ends]
  have hchain := ht.expiry r.account hends
  have htail : m.expiryTail = (E r.account).getLast? := by
    rw [← hchain.tail]
    simp [LinkView.chain, links, hm]
  have hlen : (E r.account).length ≤ l.reservations.capacity := by
    refine length_le_capacity hchain.nodup fun i hi => ?_
    obtain ⟨_, _, _, _, hi, -⟩ := reservationAt_of_mem ht hi
    simp [hi]
  obtain ⟨xs, ys, hE, hcut, hpoint⟩ := insertionPoint_spec (e := e) ht hchain
    l.reservations.capacity (E r.account) [] (by simp) (by simp) hlen
  rw [← htail] at hpoint
  have hrel : Relinks l (l.linkIntoExpiryChain r.account index e) := by
    refine relinks_linkIntoExpiryChain ha ?_
    intro m' hm'
    rw [hm, Option.some.injEq] at hm'
    rw [← hm', hpoint]
  refine ⟨hrel, ?_⟩
  have hk : l.links.claim index = some r.toClaim := by simp [links, hr]
  have hoff : index ∉ xs ++ ys := fun hi => ((ht.expiry_mem _ _).mp (hE ▸ hi)).1 rfl
  have hsome : ((l.links.chain r.account).node index).isSome := by
    simp [LinkView.chain, links, hr]
  rw [hE] at hchain
  simp only [linkIntoExpiryChain, hm, hpoint]
  rw [debugAssert_of_true rfl]
  rcases xs.eq_nil_or_concat' with rfl | ⟨xs, x, rfl⟩
  · simp only [List.nil_append, List.getLast?_nil] at hchain hoff ⊢
    rw [links_spliceAtHead ha]
    exact ⟨rfl, ht.splice hE hk rfl hs hcut
      (Intrusive.Chain.spliceHead_holds hchain hoff hsome)
      fun j hj hji => Intrusive.Chain.spliceHead_node_of_notMem hchain (by simpa using hj) hji⟩
  · simp only [List.getLast?_concat, List.append_assoc, List.singleton_append] at hchain hoff ⊢
    rw [links_spliceAfter ha]
    have hholds := Intrusive.Chain.spliceAfter_holds hchain hoff hsome
    exact ⟨rfl, ht.splice (c := (l.links.chain r.account).spliceAfter index x) hE hk rfl hs
      hcut (by simpa using hholds)
      fun j hj hji =>
        Intrusive.Chain.spliceAfter_node_of_notMem hchain (by simpa using hj) hji⟩

/-- Linking the loose claim puts every claim on its chain. -/
theorem Wired.link {r : Reservation} (h : l.Wired (some index))
    (hr : l.reservationAt index = some r) (hs : r.toClaim.status = .reserved e)
    (ha : (l.account r.account).isSome) :
    (l.linkIntoExpiryChain r.account index e).Wired none ∧
      Relinks l (l.linkIntoExpiryChain r.account index e) := by
  obtain ⟨E, C, ht⟩ := h.threads
  obtain ⟨hrel, -, E', ht'⟩ := threads_linkIntoExpiryChain ht hr hs ha
  exact ⟨h.relinks hrel ⟨E', C, ht'⟩, hrel⟩

-- ============================================================================
-- Linking into a committed list
-- ============================================================================

/-- Rewriting one claim's record, at its bare index. -/
theorem book_rewrite {claim : ResIdx} {r : Reservation} {f : Reservation → Reservation}
    (hr : l.reservation claim = some r) :
    (l.modifyReservationAt claim.index f).book =
      (l.book.dropClaim claim r.toClaim).putClaim claim (f r).toClaim := by
  have hmod : l.reservations.modifyAt claim.index f = l.reservations.modify claim f :=
    Slab.modifyAt_of_get hr
  ext1
  case claims =>
    funext h
    simp only [book, modifyReservationAt, hmod, reservation, Slab.get_modify, Book.putClaim,
      Book.dropClaim, Function.update_apply]
    split
    next => rw [show l.reservations.get claim = some r from hr]; rfl
    next => rfl
  case sum =>
    funext g
    have hle := Slab.le_sum (fun r => g r.toClaim) hr
    have := Slab.sum_modify (f := f) (fun r => g r.toClaim) hr
    simp only [book, modifyReservationAt, hmod, Book.putClaim, Book.dropClaim]
    omega
  all_goals rfl

/-- Rewriting the loose claim's record leaves every chain and list. -/
theorem threads_rewrite {E : Nat → List Nat} {C : ReqIdx → List Nat} (f : Reservation → Reservation)
    (ht : l.links.Threads (some index) E C) :
    (l.modifyReservationAt index f).links.Threads (some index) E C := by
  refine ht.of_loose rfl rfl ?_ ?_ (.inl rfl)
  · intro j hj
    simp only [links, reservationAt_modifyReservationAt, if_neg hj]
  · intro j hj
    simp only [links, reservationAt_modifyReservationAt, if_neg hj]

/-- Rewriting the loose claim's record. -/
theorem Wired.rewrite {f : Reservation → Reservation} (h : l.Wired (some index)) :
    (l.modifyReservationAt index f).Wired (some index) := by
  obtain ⟨E, C, ht⟩ := h.threads
  exact ⟨h.reservations.modifyAt, h.requests, h.quotes, ⟨E, C, threads_rewrite f ht⟩⟩

theorem kept_modifyReservationAt (index : Nat) (f : Reservation → Reservation) :
    Kept l (l.modifyReservationAt index f) :=
  ⟨rfl, Slab.length_modifyAt, rfl, rfl, rfl, rfl, rfl⟩

theorem kept_modifyRequest {request : ReqIdx} {f : Request → Request} :
    Kept l (l.modifyRequest request f) :=
  ⟨rfl, rfl, rfl, Slab.generations_modify, freeHead_modify, rfl, rfl⟩

/-- The loose claim, already marked committed, goes to the head of its list. -/
theorem links_pushList {request : ReqIdx} {r : Request} (hreq : l.request request = some r) :
    ((match r.committedHead with
      | some headIndex => l.modifyReservationAt headIndex fun r => r.setPrev (some index)
      | none => l).modifyRequest request fun r => { r with committedHead := some index }).links =
      l.links.pushList index request r.committedHead := by
  have hlist : ∀ (l' : Ledger), l'.requests = l.requests →
      (l'.modifyRequest request fun r => { r with committedHead := some index }).links =
        { l'.links with
          listHead := Function.update l.links.listHead request (some (some index)) } := by
    intro l' hl'
    ext1
    case listHead =>
      funext r'
      simp only [links, modifyRequest, Ledger.request, Slab.get_modify, hl', Function.update_apply]
      split
      next => rw [show l.requests.get request = some r from hreq]; rfl
      next => rfl
    all_goals rfl
  cases hhead : r.committedHead with
  | none =>
      rw [hlist l rfl]
      ext1
      case node =>
        funext j
        simp [LinkView.pushList]
      all_goals rfl
  | some i =>
      simp only
      rw [hlist (l.modifyReservationAt i fun r => r.setPrev (some index)) rfl,
        links_modifyReservationAt (fun r => r.toClaim_setPrev (some index))
        (fun x => (some index, x.2)) fun r => r.neighbours_setPrev (some index)]
      ext1
      case node =>
        funext j
        simp [LinkView.pushList, eq_comm]
      all_goals rfl

/-- The loose claim is marked committed, and goes to the head of the list. -/
theorem links_linkIntoCommittedList {request : ReqIdx} {r : Request} (hreq : l.request request = some r) :
    (l.linkIntoCommittedList request index).links =
      (l.modifyReservationAt index fun v =>
        v.setLinks (.committed request none r.committedHead)).links.pushList index request r.committedHead := by
  unfold linkIntoCommittedList
  rw [hreq, Option.map_some, Option.getD_some]
  exact links_pushList hreq

/-- Moving the loose claim to a request's committed list. -/
theorem Wired.list {claim : ResIdx} {r : Reservation} {request : ReqIdx}
    (h : l.Wired (some claim.index)) (hr : l.reservation claim = some r)
    (hreq : (l.request request).isSome) :
    (l.linkIntoCommittedList request claim.index).Wired none ∧
      (l.linkIntoCommittedList request claim.index).book =
        (l.book.dropClaim claim r.toClaim).putClaim claim (r.toClaim.committedAs request r.amount) ∧
      Kept l (l.linkIntoCommittedList request claim.index) ∧
      (l.linkIntoCommittedList request claim.index).quotes = l.quotes ∧
      (l.linkIntoCommittedList request claim.index).accounts = l.accounts := by
  obtain ⟨record, hrecord⟩ := Option.isSome_iff_exists.mp hreq
  have hat : l.reservationAt claim.index = some r := Slab.valueAt_of_get hr
  unfold linkIntoCommittedList
  rw [hrecord, Option.map_some, Option.getD_some]
  dsimp only
  generalize hl₁ : l.modifyReservationAt claim.index
    (fun r => r.setLinks (.committed request none record.committedHead)) = l₁
  have hw₁ : l₁.Wired (some claim.index) := hl₁ ▸ h.rewrite
  have hbook₁ : l₁.book = (l.book.dropClaim claim r.toClaim).putClaim claim
      (r.toClaim.committedAs request r.amount) := hl₁ ▸ book_rewrite hr
  have hkept₁ : Kept l l₁ := hl₁ ▸ kept_modifyReservationAt _ _
  have hrecord₁ : l₁.request request = some record := by rw [← hl₁]; exact hrecord
  have hat₁ : l₁.reservationAt claim.index =
      some (r.setLinks (.committed request none record.committedHead)) := by
    rw [← hl₁, reservationAt_modifyReservationAt, if_pos rfl, hat]
    rfl
  have hquotes₁ : l₁.quotes = l.quotes := by rw [← hl₁]; rfl
  have haccounts₁ : l₁.accounts = l.accounts := by rw [← hl₁]; rfl
  obtain ⟨E, C, ht⟩ := hw₁.threads
  have hlist : l₁.links.listHead request = some record.committedHead := by
    simp [links, hrecord₁]
  have hk : l₁.links.claim claim.index = some (r.toClaim.committedAs request r.amount) := by
    simp only [links, hat₁]
    rfl
  have hnode : l₁.links.node claim.index = some (none, record.committedHead) := by
    simp only [links, hat₁]
    rfl
  have ht' := ht.pushList hlist hk rfl hnode
  rw [← links_pushList hrecord₁] at ht'
  cases hhead : record.committedHead with
  | none =>
      rw [hhead] at ht'
      refine ⟨⟨hw₁.reservations, hw₁.requests.modify, hw₁.quotes, ⟨E, _, ht'⟩⟩, ?_,
        hkept₁.trans kept_modifyRequest, hquotes₁, haccounts₁⟩
      exact book_setCommittedHead.trans hbook₁
  | some i =>
      rw [hhead] at ht'
      refine ⟨⟨hw₁.reservations.modifyAt, hw₁.requests.modify, hw₁.quotes, ⟨E, _, ht'⟩⟩,
        ?_, (hkept₁.trans (kept_modifyReservationAt _ _)).trans kept_modifyRequest, hquotes₁, haccounts₁⟩
      exact book_setCommittedHead.trans (relinks_setPrev.book.trans hbook₁)

end Ledger

end RfqSettlement
