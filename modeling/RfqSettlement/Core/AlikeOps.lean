/-
  RfqSettlement.Core.AlikeOps

  The ledger's operations on two ledgers alike to everyone but one account.

  Only the admission check reads a total, so only what `a` itself reserves can be answered
  differently in the two; everything else has one answer and leaves them alike.
-/

import RfqSettlement.Core.Alike

namespace RfqSettlement

/-- Two answers: the same, but for why `own` was refused. -/
inductive SameAnswer {ε α : Type} (own : Prop) : Except ε α → Except ε α → Prop where
  | ok (value : α) : SameAnswer own (.ok value) (.ok value)
  | error {err err' : ε} (h : ¬ own → err = err') : SameAnswer own (.error err) (.error err')

theorem SameAnswer.refl {ε α : Type} {own : Prop} (x : Except ε α) : SameAnswer own x x := by
  cases x with
  | ok value => exact .ok value
  | error err => exact .error fun _ => rfl

theorem SameAnswer.mono {ε α : Type} {own own' : Prop} {x x' : Except ε α} (h : SameAnswer own x x')
    (himp : own → own') : SameAnswer own' x x' := by
  cases h with
  | ok value => exact .ok value
  | error herr => exact .error fun hnot => herr fun hown => hnot (himp hown)

theorem SameAnswer.eq {ε α : Type} {own : Prop} {x x' : Except ε α} (h : SameAnswer own x x')
    (hown : ¬ own) : x = x' := by
  cases h with
  | ok => rfl
  | error herr => rw [herr hown]

namespace Ledger

namespace Alike

variable {a : Nat} {l l' : Ledger}

-- ============================================================================
-- The mirror and the contracts
-- ============================================================================

theorem applyMirrorUpdate (h : Alike a l l') (i : Nat) {free free' : Nat} (hfree : i ≠ a → free = free') :
    (l.applyMirrorUpdate i free).1 = (l'.applyMirrorUpdate i free').1 ∧
      Alike a (l.applyMirrorUpdate i free).2 (l'.applyMirrorUpdate i free').2 := by
  unfold Ledger.applyMirrorUpdate
  have haccount := h.accounts i
  generalize l.account i = m at haccount
  generalize l'.account i = m' at haccount
  cases haccount with
  | none => exact ⟨rfl, h⟩
  | some hm =>
      refine ⟨rfl, modifyAccount h i ?_⟩
      intro m m' hm
      exact ⟨hm.expiryHead, hm.expiryTail, fun hi => by rw [hm.shown hi, hfree hi]⟩

theorem withContracts (h : Alike a l l') (contracts : List (Option Contract)) :
    Alike a { l with contracts } { l' with contracts } :=
  ⟨h.accounts, rfl, h.reservations, h.requests, h.quotes⟩

theorem registerContract (h : Alike a l l') (c date : Nat) :
    (l.registerContract c date).1 = (l'.registerContract c date).1 ∧
      Alike a (l.registerContract c date).2 (l'.registerContract c date).2 := by
  unfold Ledger.registerContract
  rw [h.contracts]
  split
  · exact ⟨rfl, h⟩
  · split
    · exact ⟨rfl, h⟩
    · exact ⟨rfl, h⟩
  · exact ⟨rfl, h.withContracts _⟩

theorem setOracleStatus (h : Alike a l l') (c : Nat) (status : OracleStatus) :
    Alike a (l.setOracleStatus c status) (l'.setOracleStatus c status) := by
  unfold Ledger.setOracleStatus
  rw [h.contracts]
  exact h.withContracts _

-- ============================================================================
-- Admission
-- ============================================================================

theorem checkReservable (h : Alike a l l') {i : Nat} (hi : i ≠ a) (amount : Nat) :
    l.checkReservable i amount = l'.checkReservable i amount := by
  rw [Ledger.checkReservable, Ledger.checkReservable, h.account_eq hi]

theorem linkClaim (h : Alike a l l') {i : Nat} (claim : ResIdx) (expiresAt : Nat) (owner : ResOwner)
    {reserved reserved' : Nat} (hreserved : i ≠ a → reserved = reserved') :
    Alike a (l.linkClaim i claim expiresAt owner reserved)
      (l'.linkClaim i claim expiresAt owner reserved') := by
  unfold Ledger.linkClaim
  refine setOwnerClaim (modifyAccount (h.linkIntoExpiryChain i claim.index expiresAt) i ?_) owner _
  intro m m' hm
  exact ⟨hm.expiryHead, hm.expiryTail, fun hi => by rw [hm.shown hi, hreserved hi]⟩

theorem withReservations (h : Alike a l l') {s s' : Slab .reservation Reservation}
    (hs : Slab.Twins (Reservation.Alike a) s s') :
    Alike a { l with reservations := s } { l' with reservations := s' } :=
  ⟨h.accounts, h.contracts, hs, h.requests, h.quotes⟩

theorem withQuotes (h : Alike a l l') (quotes : Slab .quote Quote) :
    Alike a { l with quotes } { l' with quotes } :=
  ⟨h.accounts, h.contracts, h.reservations, h.requests, rfl⟩

theorem withRequests (h : Alike a l l') {s s' : Slab .request Request}
    (hs : Slab.Twins (Request.Alike a) s s') :
    Alike a { l with requests := s } { l' with requests := s' } :=
  ⟨h.accounts, h.contracts, h.reservations, hs, h.quotes⟩

theorem reserved (i : Nat) {amount amount' : Nat} (owner : ResOwner) (expiresAt : Nat)
    (hamount : i ≠ a → amount = amount') :
    Reservation.Alike a (.reserved i amount owner expiresAt) (.reserved i amount' owner expiresAt) :=
  ⟨rfl, rfl, rfl, hamount⟩

/-- A quote admitted in both meets the same room and opens under the same handles. -/
theorem openQuoteReserving_of_checks (h : Alike a l l') (record : Quote) {amount x x' : Nat}
    (hcheck : l.checkReservable record.maker amount = .ok x)
    (hcheck' : l'.checkReservable record.maker amount = .ok x') (hx : record.maker ≠ a → x = x') :
    (l.openQuoteReserving record amount).1 = (l'.openQuoteReserving record amount).1 ∧
      Alike a (l.openQuoteReserving record amount).2 (l'.openQuoteReserving record amount).2 := by
  unfold Ledger.openQuoteReserving
  rw [hcheck, hcheck', h.quotes, h.reservations.hasRoom]
  dsimp only
  split
  · exact ⟨rfl, h⟩
  split
  · exact ⟨rfl, h⟩
  split
  · exact ⟨rfl, h⟩
  next quote quotes hinsert =>
  have hquotes := h.withQuotes quotes
  have hclaim : Reservation.Alike a (.reserved record.maker amount (.quote quote) record.expiresAt)
      (.reserved record.maker amount (.quote quote) record.expiresAt) := .refl _
  rcases h.reservations.insert hclaim with ⟨hnone, hnone'⟩ | ⟨claim, t, t', hsome, hsome', ht⟩
  · rw [hnone, hnone']
    exact ⟨rfl, hquotes⟩
  · rw [hsome, hsome']
    exact ⟨rfl, (hquotes.withReservations ht).linkClaim claim record.expiresAt (.quote quote) hx⟩

theorem openRequestReserving_of_checks (h : Alike a l l') {record record' : Request}
    (hrecord : Request.Alike a record record') {amount amount' x x' : Nat}
    (hcheck : l.checkReservable record.requester amount = .ok x)
    (hcheck' : l'.checkReservable record'.requester amount' = .ok x')
    (hamount : record.requester ≠ a → amount = amount') (hx : record.requester ≠ a → x = x') :
    (l.openRequestReserving record amount).1 = (l'.openRequestReserving record' amount').1 ∧
      Alike a (l.openRequestReserving record amount).2 (l'.openRequestReserving record' amount').2 := by
  unfold Ledger.openRequestReserving
  rw [hcheck, hcheck', h.requests.hasRoom, h.reservations.hasRoom, ← hrecord.requester, ← hrecord.deadline]
  dsimp only
  split
  · exact ⟨rfl, h⟩
  split
  · exact ⟨rfl, h⟩
  rcases h.requests.insert hrecord with ⟨hnone, hnone'⟩ | ⟨request, s, s', hsome, hsome', hs⟩
  · rw [hnone, hnone']
    exact ⟨rfl, h⟩
  rw [hsome, hsome']
  dsimp only
  have hrequests := h.withRequests hs
  have hclaim := reserved (a := a) record.requester (.request request) record.deadline hamount
  rcases h.reservations.insert hclaim with ⟨hnone, hnone'⟩ | ⟨claim, t, t', hsome, hsome', ht⟩
  · rw [hnone, hnone']
    exact ⟨rfl, hrequests⟩
  · rw [hsome, hsome']
    exact ⟨rfl, (hrequests.withReservations ht).linkClaim claim record.deadline (.request request) hx⟩

end Alike

theorem isOk_openQuoteReserving {l : Ledger} (h : l.Intact) {record : Quote} (hrecord : record.claim = none)
    (amount : Nat) :
    (l.openQuoteReserving record amount).1.isOk = true ↔ CanOpenQuote l record.maker amount := by
  by_cases hopen : CanOpenQuote l record.maker amount
  · obtain ⟨quote, claim, l', heq, -⟩ := h.openQuoteReserving_ok hrecord hopen
    simp [heq, hopen, Except.isOk, Except.toBool]
  · obtain ⟨err, heq⟩ := openQuoteReserving_error record amount hopen
    simp [heq, hopen, Except.isOk, Except.toBool]

theorem isOk_openRequestReserving {l : Ledger} (h : l.Intact) {record : Request} (hclaim : record.claim = none)
    (hhead : record.committedHead = none) (amount : Nat) :
    (l.openRequestReserving record amount).1.isOk = true ↔ CanOpenRequest l record.requester amount := by
  by_cases hopen : CanOpenRequest l record.requester amount
  · obtain ⟨request, claim, l', heq, -⟩ := h.openRequestReserving_ok hclaim hhead hopen
    simp [heq, hopen, Except.isOk, Except.toBool]
  · obtain ⟨err, heq⟩ : ∃ err, l.openRequestReserving record amount = (.error err, l) :=
      openRequestReserving_error hopen
    simp [heq, hopen, Except.isOk, Except.toBool]

namespace Alike

variable {a : Nat} {l l' : Ledger}

/-- A quote opened in both: one answer, if `a`'s own are admitted in both or in neither. -/
theorem openQuoteReserving (h : Alike a l l') (hl : l.Intact) (hl' : l'.Intact) {record : Quote}
    (hrecord : record.claim = none) (amount : Nat)
    (hsame : record.maker = a →
      (l.openQuoteReserving record amount).1.isOk = (l'.openQuoteReserving record amount).1.isOk) :
    SameAnswer (record.maker = a) (l.openQuoteReserving record amount).1
        (l'.openQuoteReserving record amount).1 ∧
      Alike a (l.openQuoteReserving record amount).2 (l'.openQuoteReserving record amount).2 := by
  by_cases hown : record.maker = a
  · by_cases hopen : CanOpenQuote l record.maker amount
    · have hopen' : CanOpenQuote l' record.maker amount :=
        (isOk_openQuoteReserving hl' hrecord amount).mp
          (hsame hown ▸ (isOk_openQuoteReserving hl hrecord amount).mpr hopen)
      obtain ⟨m, hadm⟩ := hopen.1
      obtain ⟨m', hadm'⟩ := hopen'.1
      obtain ⟨heq, halike⟩ := h.openQuoteReserving_of_checks record
        (checkReservable_eq_ok.mpr ⟨m, hadm, rfl⟩) (checkReservable_eq_ok.mpr ⟨m', hadm', rfl⟩)
        fun hne => absurd hown hne
      exact ⟨heq ▸ .refl _, halike⟩
    · have hopen' : ¬ CanOpenQuote l' record.maker amount := fun hopen' =>
        hopen ((isOk_openQuoteReserving hl hrecord amount).mp
          ((hsame hown).trans ((isOk_openQuoteReserving hl' hrecord amount).mpr hopen')))
      obtain ⟨err, heq⟩ := openQuoteReserving_error record amount hopen
      obtain ⟨err', heq'⟩ := openQuoteReserving_error record amount hopen'
      rw [heq, heq']
      exact ⟨.error fun hne => absurd hown hne, h⟩
  · have hchecks := h.checkReservable hown amount
    cases hcheck : l'.checkReservable record.maker amount with
    | error err =>
        unfold Ledger.openQuoteReserving
        rw [hchecks, hcheck]
        exact ⟨.refl _, h⟩
    | ok x =>
        obtain ⟨heq, halike⟩ :=
          h.openQuoteReserving_of_checks record (hchecks.trans hcheck) hcheck fun _ => rfl
        exact ⟨heq ▸ .refl _, halike⟩

theorem openRequestReserving (h : Alike a l l') (hl : l.Intact) (hl' : l'.Intact) {record record' : Request}
    (hrecord : Request.Alike a record record') (hclaim : record.claim = none)
    (hhead : record.committedHead = none) {amount amount' : Nat}
    (hamount : record.requester ≠ a → amount = amount')
    (hsame : record.requester = a → (l.openRequestReserving record amount).1.isOk =
      (l'.openRequestReserving record' amount').1.isOk) :
    SameAnswer (record.requester = a) (l.openRequestReserving record amount).1
        (l'.openRequestReserving record' amount').1 ∧
      Alike a (l.openRequestReserving record amount).2 (l'.openRequestReserving record' amount').2 := by
  have hclaim' := hrecord.claim.symm.trans hclaim
  have hhead' := hrecord.committedHead.symm.trans hhead
  by_cases hown : record.requester = a
  · by_cases hopen : CanOpenRequest l record.requester amount
    · have hopen' : CanOpenRequest l' record'.requester amount' :=
        (isOk_openRequestReserving hl' hclaim' hhead' amount').mp
          (hsame hown ▸ (isOk_openRequestReserving hl hclaim hhead amount).mpr hopen)
      obtain ⟨m, hadm⟩ := hopen.1
      obtain ⟨m', hadm'⟩ := hopen'.1
      obtain ⟨heq, halike⟩ := h.openRequestReserving_of_checks hrecord
        (checkReservable_eq_ok.mpr ⟨m, hadm, rfl⟩) (checkReservable_eq_ok.mpr ⟨m', hadm', rfl⟩)
        hamount fun hne => absurd hown hne
      exact ⟨heq ▸ .refl _, halike⟩
    · have hopen' : ¬ CanOpenRequest l' record'.requester amount' := fun hopen' =>
        hopen ((isOk_openRequestReserving hl hclaim hhead amount).mp
          ((hsame hown).trans ((isOk_openRequestReserving hl' hclaim' hhead' amount').mpr hopen')))
      obtain ⟨err, heq⟩ := openRequestReserving_error hopen
      obtain ⟨err', heq'⟩ := openRequestReserving_error hopen'
      rw [heq, heq']
      exact ⟨.error fun hne => absurd hown hne, h⟩
  · obtain rfl := hamount hown
    have hchecks := h.checkReservable hown amount
    have hchecks' : l.checkReservable record.requester amount = l'.checkReservable record'.requester amount := by
      rw [hchecks, hrecord.requester]
    cases hcheck : l'.checkReservable record'.requester amount with
    | error err =>
        unfold Ledger.openRequestReserving
        rw [hchecks', hcheck]
        exact ⟨.refl _, h⟩
    | ok x =>
        obtain ⟨heq, halike⟩ := h.openRequestReserving_of_checks hrecord (hchecks'.trans hcheck) hcheck
          (fun _ => rfl) fun _ => rfl
        exact ⟨heq ▸ .refl _, halike⟩

-- ============================================================================
-- Releasing and committing
-- ============================================================================

/-- A claim reclaimed from the account that holds it, at whatever amount if that is `a`. -/
theorem reclaim (h : Alike a l l') (i : Nat) (claim : ResIdx) {v v' : Reservation}
    (hv : Reservation.Alike a v v') (hamount : i ≠ a → v.amount = v'.amount) :
    Alike a (l.reclaim i claim v) (l'.reclaim i claim v') := by
  unfold Ledger.reclaim
  rw [hv.owner]
  exact (((h.unlinkFromChain i claim.index).lowerReserved i hamount).setOwnerClaim v'.owner none).removeReservation
    claim

/-- Normalisation frees the same claims in both: what is dead is read off the expiries. -/
theorem releaseExpiredFrom {E : Nat → List Nat} {C : ReqIdx → List Nat} {account now : Nat} (fuel : Nat)
    (count : Nat) (h : Alike a l l') (hl : l.Intact) (ht : l.links.Threads none E C)
    (ha : (l.account account).isSome) :
    Alike a (l.releaseExpiredFrom account now fuel (E account).head? count).2
      (l'.releaseExpiredFrom account now fuel (E account).head? count).2 := by
  induction fuel generalizing l l' E count with
  | zero =>
      cases (E account).head? with
      | none => exact h
      | some index => exact h.debugAssert
  | succ fuel ih =>
      cases hE : E account with
      | nil => exact h
      | cons i ys =>
          have hi : i ∈ E account := by simp [hE]
          obtain ⟨v, e, prev, next, hv, rfl, hlinks, -⟩ := reservationAt_of_mem ht hi
          obtain ⟨handle, rfl, hget⟩ := Slab.valueAt_eq_some.mp hv
          have hs : v.toClaim.status = .reserved e := by
            simp [Reservation.toClaim, ClaimLinks.status, hlinks]
          have halike := h.reservationAt handle.index
          rw [hv] at halike
          simp only [List.head?_cons, Ledger.releaseExpiredFrom, hv]
          generalize l'.reservationAt handle.index = v' at halike
          cases halike with
          | @some _ v' halike =>
          dsimp only
          rw [← halike.isExpiredAt, ← h.reservations.handleAt, Slab.handleAt_of_get hget,
            Reservation.isExpiredAt_eq now hs]
          by_cases he : e ≤ now
          · simp only [he, decide_true]
            have hfrees := hl.reclaim hget hs
            obtain ⟨E', hthreads, hE', hnext, ha'⟩ := hl.head_reclaimed ht hget hs ha hE
            rw [← halike.neighbours, hnext, ← hE']
            exact ih (count + 1) (h.reclaim _ handle halike halike.amount) hfrees.intact hthreads ha'
          · simp only [he, decide_false]
            exact h

theorem releaseExpired (h : Alike a l l') (hl : l.Intact) (account now : Nat) :
    Alike a (l.releaseExpired account now).2 (l'.releaseExpired account now).2 := by
  have haccount := h.accounts account
  cases hm : l.account account with
  | none =>
      rw [hm] at haccount
      cases hm' : l'.account account with
      | none => simpa only [Ledger.releaseExpired, hm, hm'] using h
      | some m' =>
          rw [hm'] at haccount
          cases haccount
  | some m =>
      rw [hm] at haccount
      cases hm' : l'.account account with
      | none =>
          rw [hm'] at haccount
          cases haccount
      | some m' =>
          rw [hm'] at haccount
          obtain ⟨E, C, ht⟩ := hl.wired.threads
          have ha : (l.account account).isSome := by simp [hm]
          have hhead : m.expiryHead = (E account).head? := by
            rw [← (ht.expiry account (by rwa [isSome_ends])).head]
            simp [LinkView.chain, links, hm]
          cases haccount with
          | some haccount =>
          simp only [Ledger.releaseExpired, hm, hm', ← haccount.expiryHead, hhead, ← h.reservations.capacity]
          exact h.releaseExpiredFrom _ 0 hl ht ha

theorem commitRelease (h : Alike a l l') (claim : ResIdx) :
    Alike a (CommitPhase.release l claim) (CommitPhase.release l' claim) := by
  unfold CommitPhase.release
  have hv := h.reservation claim
  generalize l.reservation claim = v at hv
  generalize l'.reservation claim = v' at hv
  cases hv with
  | none => exact h.debugAssert
  | some hv =>
      dsimp only
      rw [hv.isCommitted]
      split
      · exact h.debugAssert
      · rw [← hv.account]
        exact h.reclaim _ claim hv hv.amount

/-- Unlinking a claim leaves it on the account that holds it. -/
theorem account_unlinked {claim : ResIdx} {v w : Reservation} {i : Nat} (hv : l.reservation claim = some v)
    (hw : (l.unlinkFromChain i claim.index).reservationAt claim.index = some w) : w.account = v.account := by
  have hat : l.reservationAt claim.index = some v := Slab.valueAt_eq_some.mpr ⟨claim, rfl, hv⟩
  have hbook : (l.unlinkFromChain i claim.index).book = l.book :=
    (relinks_unlinkFromChain (hat ▸ rfl : (l.reservationAt claim.index).isSome)).book
  have hclaim : (l.unlinkFromChain i claim.index).book.claims claim = some v.toClaim := by
    rw [hbook]
    exact book_claims hv
  obtain ⟨u, hu, hsame⟩ := reservation_of_claims hclaim
  obtain rfl : u = w := Option.some.inj ((Slab.valueAt_eq_some.mpr ⟨claim, rfl, hu⟩).symm.trans hw)
  exact congrArg Claim.account hsame

/-- A claim committed, at the same amount in both unless `a` holds it. -/
theorem commitCommit (h : Alike a l l') (claim : ResIdx) (r : ReqIdx) {keep keep' : Nat}
    (hkeep : ∀ v, l.reservation claim = some v → v.account ≠ a → keep = keep') :
    Alike a (CommitPhase.commit l claim r keep) (CommitPhase.commit l' claim r keep') := by
  unfold CommitPhase.commit
  have hv := h.reservation claim
  cases hget : l.reservation claim with
  | none =>
      rw [hget] at hv
      generalize l'.reservation claim = v' at hv
      cases hv
      exact h.debugAssert
  | some v =>
      rw [hget] at hv
      generalize l'.reservation claim = v' at hv
      cases hv with
      | @some _ v' hv =>
      dsimp only
      rw [hv.isCommitted]
      split
      · exact h.debugAssert
      have hkept : v.account ≠ a → min keep v.amount = min keep' v'.amount := fun hne => by
        rw [hkeep v hget hne, hv.amount hne]
      rw [← hv.account]
      refine raiseCommitted (lowerReserved (linkIntoCommittedList (modifyStored
        (h.debugAssert.unlinkFromChain _ _) _ ?_) r claim.index) _ hv.amount) _ hkept
      intro w w' hstored hw
      have haccount : w.account = v.account := account_unlinked (l := l.debugAssert _) hget hstored
      exact ⟨hw.account, hw.owner, hw.links, fun hne => hkept fun heq => hne (haccount.trans heq)⟩

theorem commitCloseQuote (h : Alike a l l') (q : QuoteIdx) :
    Alike a (CommitPhase.closeQuote l q) (CommitPhase.closeQuote l' q) := by
  unfold CommitPhase.closeQuote
  rw [h.quotes]
  exact (h.withQuotes _).debugAssert

theorem dischargeClaim (h : Alike a l l') (claim : ResIdx) {v v' : Reservation}
    (hv : Reservation.Alike a v v') :
    Alike a (CommitPhase.dischargeClaim l claim v) (CommitPhase.dischargeClaim l' claim v') := by
  unfold CommitPhase.dischargeClaim
  rw [← hv.account, ← hv.owner]
  have hlowered := (h.lowerCommitted v.account hv.amount).setOwnerClaim v.owner none
  exact hlowered.withReservations (hlowered.reservations.remove claim).2

/-- A discharge visits the same owners in both. -/
theorem dischargeFrom (h : Alike a l l') (fuel : Nat) (cursor : Link) {visited visited' : List (ResOwner × Nat)}
    (hvisited : visited.map Prod.fst = visited'.map Prod.fst) :
    (CommitPhase.dischargeFrom l fuel cursor visited).1.map Prod.fst =
        (CommitPhase.dischargeFrom l' fuel cursor visited').1.map Prod.fst ∧
      Alike a (CommitPhase.dischargeFrom l fuel cursor visited).2
        (CommitPhase.dischargeFrom l' fuel cursor visited').2 := by
  induction fuel generalizing l l' cursor visited visited' with
  | zero =>
      cases cursor with
      | none => exact ⟨hvisited, h⟩
      | some index => exact ⟨hvisited, h.debugAssert⟩
  | succ fuel ih =>
      cases cursor with
      | none => exact ⟨hvisited, h⟩
      | some index =>
          unfold CommitPhase.dischargeFrom
          have hv := h.reservationAt index
          generalize l.reservationAt index = v at hv
          generalize l'.reservationAt index = v' at hv
          cases hv with
          | none => exact ⟨hvisited, h.debugAssert⟩
          | @some v v' hv =>
              dsimp only
              rw [h.reservations.handleAt]
              split
              · exact ⟨hvisited, h⟩
              next handle hhandle =>
              rw [hv.neighbours]
              exact ih (h.dischargeClaim handle hv) _ (by simp [hvisited, hv.owner])

theorem dischargeCommitted (h : Alike a l l') (r : ReqIdx) :
    (CommitPhase.dischargeCommitted l r).1.map Prod.fst = (CommitPhase.dischargeCommitted l' r).1.map Prod.fst ∧
      Alike a (CommitPhase.dischargeCommitted l r).2 (CommitPhase.dischargeCommitted l' r).2 := by
  unfold CommitPhase.dischargeCommitted
  rw [h.committedHead r, h.reservations.capacity]
  obtain ⟨howners, halike⟩ := h.dischargeFrom (l'.reservations.capacity + 1)
    (((l'.request r).map fun y => y.committedHead).getD none)
    (rfl : ([] : List (ResOwner × Nat)).map Prod.fst = ([] : List (ResOwner × Nat)).map Prod.fst)
  exact ⟨howners, halike.setRequest r (fun _ => ⟨rfl, rfl⟩) fun _ _ hy => ⟨hy.deadline, hy.state, rfl, rfl⟩⟩

end Alike

end Ledger

end RfqSettlement
