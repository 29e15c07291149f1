/-
  RfqSettlement.Core.LedgerCalls

  Everything a caller may ask of a ledger, and what a refusal leaves behind.

  A call answers with a `Result`; an operation of the commit phase answers nothing.  That
  a refused call has changed nothing rests on the slabs alone: in a valid slab `has_room`
  says what `insert` will do, whatever the chains and totals look like.
-/

import RfqSettlement.Core.LedgerIntegrity

namespace RfqSettlement

namespace Ledger

variable {l : Ledger} {account amount now index : Nat} {claim : ResIdx} {owner : ResOwner}
  {request : ReqIdx}

-- ============================================================================
-- Calls
-- ============================================================================

/-- What `account` may draw on once its dead claims are reclaimed. -/
def free (l : Ledger) (account now : Nat) : Except LedgerError Nat × Ledger :=
  match l.releaseExpired account now with
  | (.error e, l) => (.error e, l)
  | (.ok _, l) =>
    match l.account account with
    | none => (.error .unknownAccount, l)
    | some entry => (.ok entry.available, l)

/-- The operations that answer with a `Result`. -/
inductive Call where
  | reserve (account amount expiresAt : Nat) (owner : ResOwner)
  | openQuoteReserving (record : Quote) (amount : Nat)
  | openRequestReserving (record : Request) (amount : Nat)
  | release (claim : ResIdx)
  | commit (claim : ResIdx) (request : ReqIdx)
  | closeQuote (quote : QuoteIdx)
  | closeRequest (request : ReqIdx)
  | registerContract (contract eventDate : Nat)
  | applyMirrorUpdate (account free : Nat)
  | releaseExpired (account now : Nat)
  | free (account now : Nat)

/-- An answer without its value. -/
def plain {α : Type} (x : Except LedgerError α × Ledger) : Except LedgerError Unit × Ledger :=
  (x.1.map fun _ => (), x.2)

def Call.answer (l : Ledger) : Call → Except LedgerError Unit × Ledger
  | .reserve account amount expiresAt owner => plain (l.reserve account amount expiresAt owner)
  | .openQuoteReserving record amount => plain (l.openQuoteReserving record amount)
  | .openRequestReserving record amount => plain (l.openRequestReserving record amount)
  | .release claim => plain (l.release claim)
  | .commit claim request => l.commit claim request
  | .closeQuote quote => l.closeQuote quote
  | .closeRequest request => l.closeRequest request
  | .registerContract contract eventDate => l.registerContract contract eventDate
  | .applyMirrorUpdate account amount => l.applyMirrorUpdate account amount
  | .releaseExpired account now => plain (l.releaseExpired account now)
  | .free account now => plain (l.free account now)

/-- The operations of the commit phase.  Field writes go through `quote_mut` and
    `request_mut`. -/
inductive CommitOp where
  | release (claim : ResIdx)
  | commit (claim : ResIdx) (request : ReqIdx) (keep : Nat)
  | closeQuote (quote : QuoteIdx)
  | dischargeCommitted (request : ReqIdx)
  | quoteMut (quote : QuoteIdx) (write : Quote → Quote)
  | requestMut (request : ReqIdx) (write : Request → Request)

def CommitOp.apply (l : Ledger) : CommitOp → Ledger
  | .release claim => CommitPhase.release l claim
  | .commit claim request keep => CommitPhase.commit l claim request keep
  | .closeQuote quote => CommitPhase.closeQuote l quote
  | .dischargeCommitted request => (CommitPhase.dischargeCommitted l request).2
  | .quoteMut quote write => l.modifyQuote quote write
  | .requestMut request write => l.modifyRequest request write

inductive Step where
  | call (call : Call)
  | commitPhase (op : CommitOp)

def Step.apply (l : Ledger) : Step → Ledger
  | .call c => (c.answer l).2
  | .commitPhase op => op.apply l

/-- The ledgers a caller can come to, each step within `ok`. -/
inductive Reached (ok : Ledger → Step → Prop) (config : Config) : Ledger → Prop where
  | new : Reached ok config (Ledger.new config)
  | step {l : Ledger} {step : Step} (h : Reached ok config l) (hok : ok l step) :
      Reached ok config (step.apply l)

theorem Reached.next {ok : Ledger → Step → Prop} {config : Config} {l : Ledger}
    (h : Reached ok config l) (step : Step) (hok : ok l step) : Reached ok config (step.apply l) :=
  h.step hok

theorem Reached.calls {config : Config} {l : Ledger} (h : Reached (fun _ _ => True) config l)
    (calls : List Call) : Reached (fun _ _ => True) config
      (calls.foldl (fun l call => (Step.call call).apply l) l) := by
  induction calls generalizing l with
  | nil => exact h
  | cons call calls ih => exact ih (h.step trivial)

-- ============================================================================
-- The slabs
-- ============================================================================

/-- The three slabs are valid. -/
structure Slabbed (l : Ledger) : Prop where
  reservations : l.reservations.Valid
  requests : l.requests.Valid
  quotes : l.quotes.Valid

theorem slabbed_new {config : Config} (h : config.Storable) : (Ledger.new config).Slabbed :=
  ⟨Slab.valid_withCapacity h.reservations, Slab.valid_withCapacity h.requests,
    Slab.valid_withCapacity h.quotes⟩

theorem Slabbed.debugAssert {holds : Bool} (h : l.Slabbed) : (l.debugAssert holds).Slabbed :=
  ⟨h.reservations, h.requests, h.quotes⟩

theorem Slabbed.modifyAccount {f : MirroredBalance → MirroredBalance} (h : l.Slabbed) :
    (l.modifyAccount account f).Slabbed :=
  ⟨h.reservations, h.requests, h.quotes⟩

theorem Slabbed.modifyReservationAt {f : Reservation → Reservation} (h : l.Slabbed) :
    (l.modifyReservationAt index f).Slabbed :=
  ⟨h.reservations.modifyAt, h.requests, h.quotes⟩

theorem Slabbed.modifyQuote {quote : QuoteIdx} {f : Quote → Quote} (h : l.Slabbed) :
    (l.modifyQuote quote f).Slabbed :=
  ⟨h.reservations, h.requests, h.quotes.modify⟩

theorem Slabbed.modifyRequest {f : Request → Request} (h : l.Slabbed) :
    (l.modifyRequest request f).Slabbed :=
  ⟨h.reservations, h.requests.modify, h.quotes⟩

theorem Slabbed.lowerReserved (h : l.Slabbed) : (l.lowerReserved account amount).Slabbed :=
  h.modifyAccount.debugAssert

theorem Slabbed.lowerCommitted (h : l.Slabbed) : (l.lowerCommitted account amount).Slabbed :=
  h.modifyAccount.debugAssert

theorem Slabbed.setOwnerClaim {held : Option ResIdx} (h : l.Slabbed) :
    (l.setOwnerClaim owner held).Slabbed := by
  cases owner with
  | quote quote => exact h.modifyQuote.debugAssert
  | request request => exact h.modifyRequest.debugAssert

theorem Slabbed.unlinkFromChain (h : l.Slabbed) : (l.unlinkFromChain account index).Slabbed := by
  unfold Ledger.unlinkFromChain
  split
  · exact h.debugAssert
  next prev next _ =>
  refine Slabbed.modifyReservationAt ?_
  cases prev <;> cases next
  · exact h.modifyAccount.modifyAccount
  · exact h.modifyAccount.modifyReservationAt
  · exact h.modifyReservationAt.modifyAccount
  · exact h.modifyReservationAt.modifyReservationAt

theorem Slabbed.linkIntoExpiryChain {expiresAt : Nat} (h : l.Slabbed) :
    (l.linkIntoExpiryChain account index expiresAt).Slabbed := by
  unfold Ledger.linkIntoExpiryChain
  split
  · exact h.debugAssert
  next entry _ =>
  dsimp only
  split
  · unfold Ledger.spliceAfter
    dsimp only
    split
    · exact h.debugAssert.modifyReservationAt.modifyReservationAt.modifyReservationAt
    · exact h.debugAssert.modifyReservationAt.modifyReservationAt.modifyAccount
  · unfold Ledger.spliceAtHead
    dsimp only
    refine Slabbed.modifyAccount ?_
    split
    · exact h.debugAssert.modifyReservationAt.modifyReservationAt
    · exact h.debugAssert.modifyReservationAt.modifyAccount

theorem Slabbed.linkIntoCommittedList (h : l.Slabbed) : (l.linkIntoCommittedList request index).Slabbed := by
  unfold Ledger.linkIntoCommittedList
  refine Slabbed.modifyRequest ?_
  split
  · exact h.modifyReservationAt.modifyReservationAt
  · exact h.modifyReservationAt

theorem Slabbed.linkClaim {expiresAt reserved : Nat} (h : l.Slabbed) :
    (l.linkClaim account claim expiresAt owner reserved).Slabbed :=
  h.linkIntoExpiryChain.modifyAccount.setOwnerClaim

theorem Slabbed.removeReservation (h : l.Slabbed) : (l.removeReservation claim).Slabbed :=
  Slabbed.debugAssert ⟨h.reservations.remove, h.requests, h.quotes⟩

theorem Slabbed.reclaim {r : Reservation} (h : l.Slabbed) : (l.reclaim account claim r).Slabbed :=
  h.unlinkFromChain.lowerReserved.setOwnerClaim.removeReservation

theorem Slabbed.dischargeClaim {r : Reservation} (h : l.Slabbed) :
    (CommitPhase.dischargeClaim l claim r).Slabbed :=
  ⟨h.lowerCommitted.setOwnerClaim.reservations.remove, h.lowerCommitted.setOwnerClaim.requests,
    h.lowerCommitted.setOwnerClaim.quotes⟩

/-- Both walks free one slot a turn. -/
theorem Slabbed.releaseExpiredFrom (h : l.Slabbed) (fuel : Nat) (cursor : Link) (count : Nat) :
    (l.releaseExpiredFrom account now fuel cursor count).2.Slabbed := by
  induction fuel generalizing l cursor count with
  | zero =>
      cases cursor
      · exact h
      · exact h.debugAssert
  | succ fuel ih =>
      cases cursor with
      | none => exact h
      | some index =>
          unfold Ledger.releaseExpiredFrom
          split
          · exact h.debugAssert
          next r _ =>
          split
          · exact h.debugAssert
          · exact h
          · split
            · exact h.debugAssert
            · exact ih h.reclaim _ _

theorem Slabbed.releaseExpired (h : l.Slabbed) : (l.releaseExpired account now).2.Slabbed := by
  unfold Ledger.releaseExpired
  split
  · exact h
  · exact h.releaseExpiredFrom _ _ _

theorem Slabbed.dischargeFrom (h : l.Slabbed) (fuel : Nat) (cursor : Link) (visited : List (ResOwner × Nat)) :
    (CommitPhase.dischargeFrom l fuel cursor visited).2.Slabbed := by
  induction fuel generalizing l cursor visited with
  | zero =>
      cases cursor
      · exact h
      · exact h.debugAssert
  | succ fuel ih =>
      cases cursor with
      | none => exact h
      | some index =>
          unfold CommitPhase.dischargeFrom
          split
          · exact h.debugAssert
          next r _ =>
          split
          · exact h
          · exact ih h.dischargeClaim _ _

-- ============================================================================
-- Atomicity
-- ============================================================================

/-- What an answer came to: nothing changed, or the slabs are still valid. -/
def Atomic {α : Type} (l : Ledger) (x : Except LedgerError α × Ledger) : Prop :=
  (∃ err, x = (.error err, l)) ∨ ∃ value l', x = (.ok value, l') ∧ l'.Slabbed

theorem atomic_error {α : Type} (err : LedgerError) : l.Atomic ((.error err, l) : Except LedgerError α × Ledger) :=
  .inl ⟨err, rfl⟩

theorem atomic_ok {α : Type} {value : α} {l' : Ledger} (h : l'.Slabbed) : l.Atomic (.ok value, l') :=
  .inr ⟨value, l', rfl, h⟩

theorem Atomic.plain {α : Type} {x : Except LedgerError α × Ledger} (h : l.Atomic x) : l.Atomic (plain x) := by
  rcases h with ⟨err, rfl⟩ | ⟨value, l', rfl, h'⟩
  · exact atomic_error err
  · exact atomic_ok h'

theorem Atomic.slabbed {α : Type} {x : Except LedgerError α × Ledger} (hx : l.Atomic x) (h : l.Slabbed) :
    x.2.Slabbed := by
  rcases hx with ⟨err, rfl⟩ | ⟨value, l', rfl, h'⟩
  · exact h
  · exact h'

theorem Slabbed.reserve {expiresAt : Nat} (h : l.Slabbed) :
    l.Atomic (l.reserve account amount expiresAt owner) := by
  unfold Ledger.reserve
  split
  · exact atomic_error _
  · exact atomic_error _
  split
  · exact atomic_error _
  next reserved _ =>
  split
  · exact atomic_error _
  next claim reservations hinsert =>
  have h' : ({ l with reservations } : Ledger).Slabbed :=
    ⟨h.reservations.insert hinsert, h.requests, h.quotes⟩
  exact atomic_ok h'.linkClaim

/-- Both slabs have room once `has_room` was asked of both, so no insert of the two is
    refused after the other. -/
theorem Slabbed.openQuoteReserving {record : Quote} (h : l.Slabbed) :
    l.Atomic (l.openQuoteReserving record amount) := by
  unfold Ledger.openQuoteReserving
  split
  · exact atomic_error _
  next reserved _ =>
  by_cases hquotes : l.quotes.hasRoom = true
  · by_cases hreservations : l.reservations.hasRoom = true
    · rw [if_neg (by simp [hquotes]), if_neg (by simp [hreservations])]
      obtain ⟨⟨quote, quotes⟩, hquote⟩ :=
        Option.isSome_iff_exists.mp (h.quotes.insert_isSome hquotes record)
      obtain ⟨⟨claim, reservations⟩, hclaim⟩ := Option.isSome_iff_exists.mp
        (h.reservations.insert_isSome hreservations
          (Reservation.reserved record.maker amount (.quote quote) record.expiresAt))
      rw [hquote]
      dsimp only
      rw [hclaim]
      have h' : ({ l with quotes, reservations } : Ledger).Slabbed :=
        ⟨h.reservations.insert hclaim, h.requests, h.quotes.insert hquote⟩
      exact atomic_ok h'.linkClaim
    · rw [if_neg (by simp [hquotes]), if_pos (by simpa using hreservations)]
      exact atomic_error _
  · rw [if_pos (by simpa using hquotes)]
    exact atomic_error _

theorem Slabbed.openRequestReserving {record : Request} (h : l.Slabbed) :
    l.Atomic (l.openRequestReserving record amount) := by
  unfold Ledger.openRequestReserving
  split
  · exact atomic_error _
  next reserved _ =>
  by_cases hrequests : l.requests.hasRoom = true
  · by_cases hreservations : l.reservations.hasRoom = true
    · rw [if_neg (by simp [hrequests]), if_neg (by simp [hreservations])]
      obtain ⟨⟨request, requests⟩, hrequest⟩ :=
        Option.isSome_iff_exists.mp (h.requests.insert_isSome hrequests record)
      obtain ⟨⟨claim, reservations⟩, hclaim⟩ := Option.isSome_iff_exists.mp
        (h.reservations.insert_isSome hreservations
          (Reservation.reserved record.requester amount (.request request) record.deadline))
      rw [hrequest]
      dsimp only
      rw [hclaim]
      have h' : ({ l with requests, reservations } : Ledger).Slabbed :=
        ⟨h.reservations.insert hclaim, h.requests.insert hrequest, h.quotes⟩
      exact atomic_ok h'.linkClaim
    · rw [if_neg (by simp [hrequests]), if_pos (by simpa using hreservations)]
      exact atomic_error _
  · rw [if_pos (by simpa using hrequests)]
    exact atomic_error _

theorem Slabbed.release (h : l.Slabbed) : l.Atomic (l.release claim) := by
  unfold Ledger.release
  split
  · exact atomic_error _
  split
  · exact atomic_error _
  split
  · exact atomic_error _
  split
  · exact atomic_error _
  · exact atomic_ok h.unlinkFromChain.modifyAccount.setOwnerClaim.removeReservation

theorem Slabbed.commit (h : l.Slabbed) : l.Atomic (l.commit claim request) := by
  unfold Ledger.commit
  split
  · exact atomic_error _
  split
  · exact atomic_error _
  split
  · exact atomic_error _
  split
  · exact atomic_error _
  split
  · exact atomic_error _
  split
  · exact atomic_error _
  · exact atomic_ok h.unlinkFromChain.linkIntoCommittedList.modifyAccount

theorem Slabbed.closeQuote {quote : QuoteIdx} (h : l.Slabbed) : l.Atomic (l.closeQuote quote) := by
  unfold Ledger.closeQuote
  split
  · exact atomic_error _
  split
  · exact atomic_error _
  · exact atomic_ok ⟨h.reservations, h.requests, h.quotes.remove⟩

theorem Slabbed.closeRequest (h : l.Slabbed) : l.Atomic (l.closeRequest request) := by
  unfold Ledger.closeRequest
  split
  · exact atomic_error _
  split
  · exact atomic_error _
  · exact atomic_ok ⟨h.reservations, h.requests.remove, h.quotes⟩

theorem Slabbed.registerContract {contract eventDate : Nat} (h : l.Slabbed) :
    l.Atomic (l.registerContract contract eventDate) := by
  unfold Ledger.registerContract
  split
  · exact atomic_error _
  · split
    · exact atomic_ok h
    · exact atomic_error _
  · exact atomic_ok ⟨h.reservations, h.requests, h.quotes⟩

theorem Slabbed.applyMirrorUpdate {free : Nat} (h : l.Slabbed) :
    l.Atomic (l.applyMirrorUpdate account free) := by
  unfold Ledger.applyMirrorUpdate
  split
  · exact atomic_error _
  · exact atomic_ok h.modifyAccount

theorem Slabbed.atomic_releaseExpired (h : l.Slabbed) : l.Atomic (l.releaseExpired account now) := by
  cases ha : l.account account with
  | none =>
      rw [releaseExpired_error ha]
      exact atomic_error _
  | some entry =>
      have hslabs : (l.releaseExpired account now).2.Slabbed := h.releaseExpired
      unfold Ledger.releaseExpired at hslabs ⊢
      rw [ha] at hslabs ⊢
      exact atomic_ok hslabs

theorem length_accounts_unlinkFromChain :
    (l.unlinkFromChain account index).accounts.length = l.accounts.length := by
  unfold unlinkFromChain
  split
  · rfl
  next prev next _ =>
  cases prev <;> cases next <;> simp [modifyAccount, modifyReservationAt]

theorem length_accounts_reclaim {r : Reservation} :
    (l.reclaim account claim r).accounts.length = l.accounts.length := by
  have hunlinked : (l.unlinkFromChain account claim.index).accounts.length = l.accounts.length :=
    length_accounts_unlinkFromChain
  rw [← hunlinked]
  unfold reclaim removeReservation
  cases r.owner <;> simp [setOwnerClaim, lowerReserved, modifyAccount, debugAssert, modifyQuote, modifyRequest]

/-- Reclaiming opens and closes no account. -/
theorem length_accounts_releaseExpiredFrom (fuel : Nat) (cursor : Link) (count : Nat) :
    (l.releaseExpiredFrom account now fuel cursor count).2.accounts.length = l.accounts.length := by
  induction fuel generalizing l cursor count with
  | zero => cases cursor <;> rfl
  | succ fuel ih =>
      cases cursor with
      | none => rfl
      | some index =>
          unfold releaseExpiredFrom
          repeat' split
          all_goals first
            | rfl
            | exact (ih _ _).trans length_accounts_reclaim

theorem Slabbed.free (h : l.Slabbed) : l.Atomic (l.free account now) := by
  unfold Ledger.free
  cases ha : l.account account with
  | none =>
      rw [releaseExpired_error ha]
      exact atomic_error _
  | some entry =>
      have hslabs : (l.releaseExpired account now).2.Slabbed := h.releaseExpired
      have hlength : (l.releaseExpiredFrom account now (l.reservations.capacity + 1)
          entry.expiryHead 0).2.accounts.length = l.accounts.length :=
        length_accounts_releaseExpiredFrom _ _ _
      unfold Ledger.releaseExpired at hslabs ⊢
      rw [ha] at hslabs ⊢
      dsimp only at hslabs ⊢
      have hlt : account < l.accounts.length := (List.getElem?_eq_some_iff.mp ha).1
      obtain ⟨entry', hentry⟩ : ∃ entry', (l.releaseExpiredFrom account now
          (l.reservations.capacity + 1) entry.expiryHead 0).2.account account = some entry' :=
        ⟨_, List.getElem?_eq_getElem (hlength.symm ▸ hlt)⟩
      rw [hentry]
      exact atomic_ok hslabs

theorem Slabbed.answer (h : l.Slabbed) (call : Call) : l.Atomic (call.answer l) := by
  cases call with
  | reserve account amount expiresAt owner => exact h.reserve.plain
  | openQuoteReserving record amount => exact h.openQuoteReserving.plain
  | openRequestReserving record amount => exact h.openRequestReserving.plain
  | release claim => exact h.release.plain
  | commit claim request => exact h.commit
  | closeQuote quote => exact h.closeQuote
  | closeRequest request => exact h.closeRequest
  | registerContract contract eventDate => exact h.registerContract
  | applyMirrorUpdate account free => exact h.applyMirrorUpdate
  | releaseExpired account now => exact h.atomic_releaseExpired.plain
  | free account now => exact h.free.plain

theorem Slabbed.commitPhase (h : l.Slabbed) (op : CommitOp) : (op.apply l).Slabbed := by
  cases op with
  | release claim =>
      show (CommitPhase.release l claim).Slabbed
      unfold CommitPhase.release
      repeat' split
      · exact h.debugAssert
      · exact h.debugAssert
      · exact h.reclaim
  | commit claim request keep =>
      show (CommitPhase.commit l claim request keep).Slabbed
      unfold CommitPhase.commit
      repeat' split
      · exact h.debugAssert
      · exact h.debugAssert
      · refine Slabbed.debugAssert (Slabbed.modifyAccount ?_)
        exact h.debugAssert.unlinkFromChain.modifyReservationAt.linkIntoCommittedList.lowerReserved
  | closeQuote quote => exact Slabbed.debugAssert ⟨h.reservations, h.requests, h.quotes.remove⟩
  | dischargeCommitted request => exact (h.dischargeFrom _ _ _).modifyRequest
  | quoteMut quote write => exact h.modifyQuote
  | requestMut request write => exact h.modifyRequest

theorem slabbed_of_reached {ok : Ledger → Step → Prop} {config : Config} (hconfig : config.Storable)
    (h : Reached ok config l) : l.Slabbed := by
  induction h with
  | new => exact slabbed_new hconfig
  | @step l step _ _ ih =>
      cases step with
      | call call => exact (ih.answer call).slabbed ih
      | commitPhase op => exact ih.commitPhase op

/-- Whatever steps came before, a call that is refused has changed nothing. -/
theorem refused_unchanged {config : Config} (hconfig : config.Storable)
    (h : Reached (fun _ _ => True) config l) (call : Call) {err : LedgerError}
    (hrefused : (call.answer l).1 = .error err) : (call.answer l).2 = l := by
  rcases (slabbed_of_reached hconfig h).answer call with ⟨err', heq⟩ | ⟨value, l', heq, -⟩
  · rw [heq]
  · rw [heq] at hrefused
    cases hrefused

/-- Two requests and two quotes whose claims fill the reservation slab; a slot is left
    for a third quote. -/
def claimsFull : Ledger :=
  [.applyMirrorUpdate 0 10, .applyMirrorUpdate 1 10,
    .openRequestReserving (Request.new 0 5 []) 1,
    .openRequestReserving (Request.new 0 6 []) 2,
    .openQuoteReserving (Quote.new 1 ⟨0, 0⟩ 0 1 1 5 0) 3,
    .openQuoteReserving (Quote.new 1 ⟨1, 0⟩ 0 1 1 6 1) 4].foldl
      (fun l call => (Step.call call).apply l) (Ledger.new Config.small)

theorem reached_claimsFull : Reached (fun _ _ => True) Config.small claimsFull :=
  Reached.new.calls _

/-- The second slab of `open_quote_reserving` is the full one; the first keeps its slot. -/
theorem refused_unchanged_claimsFull :
    claimsFull.quotes.hasRoom = true ∧
      ((Call.openQuoteReserving (Quote.new 1 ⟨0, 0⟩ 1 1 1 5 2) 1).answer claimsFull).1 =
        .error (.slabExhausted .reservation) ∧
      ((Call.openQuoteReserving (Quote.new 1 ⟨0, 0⟩ 1 1 1 5 2) 1).answer claimsFull).2 = claimsFull :=
  have hrefused : ((Call.openQuoteReserving (Quote.new 1 ⟨0, 0⟩ 1 1 1 5 2) 1).answer claimsFull).1 =
      .error (.slabExhausted .reservation) := by decide +kernel
  ⟨by decide +kernel, hrefused, refused_unchanged
    (show Config.small.Storable from ⟨by decide, by decide, by decide⟩) reached_claimsFull _ hrefused⟩

end Ledger

end RfqSettlement
