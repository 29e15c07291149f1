/-
  RfqSettlement.Core.LedgerIntegrity

  Runs of the ledger: any sequence of its operations, in any order.  Every
  operation keeps `Intact`, so the ledger's own structural check passes after
  every step of every run.
-/

import RfqSettlement.Core.ChecksPass

namespace RfqSettlement

namespace Ledger

variable {l : Ledger} {account amount e now keep : Nat} {claim : ResIdx} {quote : QuoteIdx}
  {request : ReqIdx} {owner : ResOwner}

-- ============================================================================
-- The remaining operations
-- ============================================================================

theorem intact_new {config : Config} (h : config.Storable) : (Ledger.new config).Intact := by
  have hnone : ∀ i, (Ledger.new config).reservationAt i = none := by
    intro i
    cases hv : (Ledger.new config).reservationAt i with
    | none => rfl
    | some r =>
        obtain ⟨handle, -, hget⟩ := Slab.valueAt_eq_some.mp hv
        rw [show (Ledger.new config).reservations.get handle = none from
          Slab.get_withCapacity _] at hget
        cases hget
  have hres : ∀ c, (Ledger.new config).reservation c = none := fun c => Slab.get_withCapacity _
  have haccount : ∀ a m, (Ledger.new config).account a = some m → m = {} := by
    intro a m hm
    simp only [Ledger.new, Ledger.account, List.getElem?_replicate,
      Option.ite_none_right_eq_some, Option.some.injEq] at hm
    exact hm.2.symm
  have hzero : ∀ f, (Ledger.new config).book.sum f = 0 := fun f => Slab.sum_withCapacity _ _
  refine ⟨⟨Slab.valid_withCapacity h.reservations, Slab.valid_withCapacity h.requests,
    Slab.valid_withCapacity h.quotes, ⟨fun _ => [], fun _ => [], ?_⟩⟩, ?_⟩
  · refine ⟨?_, ?_, ?_, ?_, ?_, ?_⟩
    · intro a ha
      rw [isSome_ends, Option.isSome_iff_exists] at ha
      obtain ⟨m, hm⟩ := ha
      have := haccount a m hm
      subst this
      exact ⟨List.nodup_nil, trivial, by simp [LinkView.chain, links, hm],
        by simp [LinkView.chain, links, hm]⟩
    · intro a i
      simp [links, hnone]
    · intro a
      exact List.Pairwise.nil
    · intro r head hhead
      have : (Ledger.new config).request r = none := Slab.get_withCapacity _
      simp [links, this] at hhead
    · intro r
      exact List.nodup_nil
    · intro r i
      simp [links, hnone]
  · have htotals : ∀ a t, (Ledger.new config).book.totals a = some t → t = ⟨0, 0, 0⟩ := by
      intro a t ht
      obtain ⟨m, hm, rfl⟩ := Option.map_eq_some_iff.mp ht
      rw [haccount a m hm]
      rfl
    refine ⟨?_, ?_, ?_, ?_, ?_, ?_, ?_⟩
    · intro a t ht
      rw [htotals a t ht, hzero]
    · intro a t ht
      rw [htotals a t ht, hzero]
    · intro a t ht
      rw [htotals a t ht]
      simp
    · intro c k hk
      simp [book, hres] at hk
    · intro c k r hk
      simp [book, hres] at hk
    · intro c k hk
      simp [book, hres] at hk
    · intro o c ho
      rw [ownerClaim_book] at ho
      cases o with
      | quote q =>
          have : (Ledger.new config).quote q = none := Slab.get_withCapacity _
          simp [ownerClaim, this] at ho
      | request r =>
          have : (Ledger.new config).request r = none := Slab.get_withCapacity _
          simp [ownerClaim, this] at ho

theorem Intact.applyMirrorUpdate (h : l.Intact) {free : Nat} :
    (l.applyMirrorUpdate account free).2.Intact := by
  unfold Ledger.applyMirrorUpdate
  split
  · exact h
  · refine ⟨h.wired.modifyAccount _ fun _ => rfl, ?_⟩
    rw [book_modifyAccount (fun t => { t with free }) fun _ => rfl]
    exact h.balanced.modifyTotals fun t => ⟨rfl, rfl⟩

theorem Intact.closeQuote (h : l.Intact) : (l.closeQuote quote).2.Intact := by
  unfold Ledger.closeQuote
  split
  · exact h
  next record hrecord =>
  split
  · exact h
  next hclaim =>
  refine (h.removeQuote fun q hq => ?_).1
  rw [hrecord, Option.some.injEq] at hq
  subst hq
  simpa using hclaim

theorem Intact.closeRequest (h : l.Intact) : (l.closeRequest request).2.Intact := by
  unfold Ledger.closeRequest
  split
  · exact h
  next record hrecord =>
  split
  · exact h
  next hfree =>
  simp only [Bool.or_eq_true, not_or, Bool.not_eq_true, Option.isSome_eq_false_iff,
    Option.isNone_iff_eq_none] at hfree
  exact (h.removeRequest hrecord hfree.1 hfree.2).1

/-- `release` refuses and changes nothing, or frees the claim. -/
theorem Intact.release_intact (h : l.Intact) : (l.release claim).2.Intact := by
  cases hr : l.reservation claim with
  | none => simpa [Ledger.release, hr] using h
  | some r =>
      cases hc : r.isCommitted with
      | true => simpa [Ledger.release, hr, hc] using h
      | false =>
          obtain ⟨e, hs⟩ := Reservation.isCommitted_eq_false.mp hc
          rw [h.release hr hs]
          exact (h.reclaim hr hs).intact

/-- `commit` refuses and changes nothing, or commits the claim. -/
theorem Intact.commit_intact (h : l.Intact) : (l.commit claim request).2.Intact := by
  cases hr : l.reservation claim with
  | none => simpa [Ledger.commit, hr] using h
  | some r =>
      cases hc : r.isCommitted with
      | true => simpa [Ledger.commit, hr, hc] using h
      | false =>
          obtain ⟨e, hs⟩ := Reservation.isCommitted_eq_false.mp hc
          cases hreq : l.request request with
          | none => simpa [Ledger.commit, hr, hc, hreq] using h
          | some record => exact (h.commit hr hs (by simp [hreq])).2.intact

theorem Intact.reserve_intact (h : l.Intact) : (l.reserve account amount e owner).2.Intact := by
  rcases h.reserve (e := e) with
    ⟨err, heq⟩ | ⟨claim, l', heq, hres⟩
  · rw [heq]
    exact h
  · rw [heq]
    exact hres.intact

theorem Intact.openQuoteReserving_intact (h : l.Intact) {record : Quote}
    (hrecord : record.claim = none) : (l.openQuoteReserving record amount).2.Intact := by
  by_cases hopen : CanOpenQuote l record.maker amount
  · obtain ⟨_, _, l', heq, h', -⟩ := h.openQuoteReserving_ok hrecord hopen
    rw [heq]
    exact h'
  · obtain ⟨err, heq⟩ := openQuoteReserving_error _ _ hopen
    rw [heq]
    exact h

theorem Intact.openRequestReserving_intact (h : l.Intact) {record : Request}
    (hclaim : record.claim = none) (hhead : record.committedHead = none) :
    (l.openRequestReserving record amount).2.Intact := by
  by_cases hopen : CanOpenRequest l record.requester amount
  · obtain ⟨_, _, l', heq, h', -⟩ := h.openRequestReserving_ok hclaim hhead hopen
    rw [heq]
    exact h'
  · obtain ⟨err, heq⟩ := openRequestReserving_error hopen
    rw [heq]
    exact h

theorem Intact.releaseExpired_intact (h : l.Intact) : (l.releaseExpired account now).2.Intact := by
  cases ha : l.account account with
  | none =>
      rw [releaseExpired_error ha]
      exact h
  | some m => exact (h.releaseExpired _ _ (by simp [ha])).2.intact

-- ============================================================================
-- Runs
-- ============================================================================

/-- One call into the ledger or its commit phase.  Records are the fresh ones
    `Request::new` and `Quote::new` build. -/
inductive Op where
  | applyMirrorUpdate (account free : Nat)
  | openRequestReserving (requester deadline : Nat) (legs : List Leg) (amount : Nat)
  | openQuoteReserving (maker : Nat) (request : ReqIdx) (leg price size expiresAt arrival amount : Nat)
  | reserve (account amount expiresAt : Nat) (owner : ResOwner)
  | release (claim : ResIdx)
  | commit (claim : ResIdx) (request : ReqIdx)
  | releaseExpired (account now : Nat)
  | closeQuote (quote : QuoteIdx)
  | closeRequest (request : ReqIdx)
  | releaseInCommit (claim : ResIdx)
  | commitInCommit (claim : ResIdx) (request : ReqIdx) (keep : Nat)
  | closeQuoteInCommit (quote : QuoteIdx)
  | dischargeCommitted (request : ReqIdx)

def Op.apply (l : Ledger) : Op → Ledger
  | .applyMirrorUpdate account free => (l.applyMirrorUpdate account free).2
  | .openRequestReserving requester deadline legs amount =>
    (l.openRequestReserving (Request.new requester deadline legs) amount).2
  | .openQuoteReserving maker request leg price size expiresAt arrival amount =>
    (l.openQuoteReserving (Quote.new maker request leg price size expiresAt arrival) amount).2
  | .reserve account amount expiresAt owner => (l.reserve account amount expiresAt owner).2
  | .release claim => (l.release claim).2
  | .commit claim request => (l.commit claim request).2
  | .releaseExpired account now => (l.releaseExpired account now).2
  | .closeQuote quote => (l.closeQuote quote).2
  | .closeRequest request => (l.closeRequest request).2
  | .releaseInCommit claim => CommitPhase.release l claim
  | .commitInCommit claim request keep => CommitPhase.commit l claim request keep
  | .closeQuoteInCommit quote => CommitPhase.closeQuote l quote
  | .dischargeCommitted request => (CommitPhase.dischargeCommitted l request).2

/-- What a caller of the commit phase must have established: of `commit`, that
    the claim covers what is kept; of `discharge_committed`, that the request's own
    claim, if it has one, is on its list. -/
def Op.Bounded (l : Ledger) : Op → Prop
  | .commitInCommit claim _ keep => ∀ r, l.reservation claim = some r → keep ≤ r.amount
  | .dischargeCommitted request => ∀ claim, l.ownerClaim (.request request) = some (some claim) →
      ∃ r, l.reservation claim = some r ∧ r.committedTo = some request
  | _ => True

/-- The steps on which the commit phase does all or nothing: `commit` of a claim that is
    live and reserved is given a request that resolves, and `close_quote` a quote that
    holds no claim. -/
def Op.Resolved (l : Ledger) : Op → Prop
  | .commitInCommit claim request _ => ∀ r, l.reservation claim = some r → r.isCommitted = false →
      (l.request request).isSome
  | .closeQuoteInCommit quote => ∀ q, l.quote quote = some q → q.claim = none
  | _ => True

/-- The ledgers a sequence of operations can reach, each step within `ok`. -/
inductive Run (ok : Ledger → Op → Prop) (config : Config) : Ledger → Prop where
  | new : Run ok config (Ledger.new config)
  | step {l : Ledger} {op : Op} (h : Run ok config l) (hop : ok l op) : Run ok config (op.apply l)

theorem Intact.debugAssert {holds : Bool} (h : l.Intact) : (l.debugAssert holds).Intact :=
  ⟨h.wired.debugAssert, h.balanced⟩

/-- Every operation keeps the invariant. -/
theorem Intact.apply (op : Op) (h : l.Intact) (hbounded : op.Bounded l)
    (hresolved : op.Resolved l) : (op.apply l).Intact := by
  cases op with
  | applyMirrorUpdate account free => exact h.applyMirrorUpdate
  | openRequestReserving requester deadline legs amount =>
      exact h.openRequestReserving_intact rfl rfl
  | openQuoteReserving maker request leg price size expiresAt arrival amount =>
      exact h.openQuoteReserving_intact rfl
  | reserve account amount expiresAt owner => exact h.reserve_intact
  | release claim => exact h.release_intact
  | commit claim request => exact h.commit_intact
  | releaseExpired account now => exact h.releaseExpired_intact
  | closeQuote quote => exact h.closeQuote
  | closeRequest request => exact h.closeRequest
  | releaseInCommit claim =>
      change (CommitPhase.release l claim).Intact
      unfold CommitPhase.release
      split
      · exact h.debugAssert
      next r hr =>
      split
      · exact h.debugAssert
      next hc =>
      obtain ⟨e, hs⟩ := Reservation.isCommitted_eq_false.mp (by simpa using hc)
      exact (h.reclaim hr hs).intact
  | commitInCommit claim request keep =>
      change (CommitPhase.commit l claim request keep).Intact
      cases hr : l.reservation claim with
      | none => simpa [CommitPhase.commit, hr] using h.debugAssert
      | some r =>
          cases hc : r.isCommitted with
          | true => simpa [CommitPhase.commit, hr, hc] using h.debugAssert
          | false =>
              obtain ⟨e, hs⟩ := Reservation.isCommitted_eq_false.mp hc
              exact (h.commitKeeping _ hr hs (hresolved r hr hc) (hbounded r hr)).intact
  | closeQuoteInCommit quote => exact (h.removeQuote hresolved).1.debugAssert
  | dischargeCommitted request =>
      obtain ⟨gone, l', heq, h', -⟩ := h.dischargeCommitted fun claim howner => by
        rw [ownerClaim_book] at howner
        obtain ⟨r, hr, hto⟩ := hbounded claim howner
        exact ⟨r.toClaim, book_claims hr, Reservation.committedTo_eq_some.mp hto⟩
      change (CommitPhase.dischargeCommitted l request).2.Intact
      rw [heq]
      exact h'

theorem intact_of_run {config : Config} (hconfig : config.Storable)
    (h : Run (fun l op => op.Bounded l ∧ op.Resolved l) config l) : l.Intact := by
  induction h with
  | new => exact intact_new hconfig
  | step _ hop ih => exact ih.apply _ hop.1 hop.2

/-- After every step of every run the structural check passes. -/
theorem checkStructuralInvariants_of_run {config : Config} (hconfig : config.Storable)
    (h : Run (fun l op => op.Bounded l ∧ op.Resolved l) config l) :
    l.checkStructuralInvariants = .ok () ∧ l.Intact :=
  ⟨(intact_of_run hconfig h).checkStructuralInvariants_ok, intact_of_run hconfig h⟩

/-- A run through a commit and a discharge. -/
theorem checkStructuralInvariants_of_run_small :
    ((Op.dischargeCommitted ⟨0, 0⟩).apply ((Op.commitInCommit ⟨0, 0⟩ ⟨0, 0⟩ 3).apply
      ((Op.openRequestReserving 0 5 [] 4).apply ((Op.applyMirrorUpdate 0 10).apply
        (Ledger.new Config.small))))).checkStructuralInvariants = .ok () := by
  refine (checkStructuralInvariants_of_run
    (show Config.small.Storable from ⟨by decide, by decide, by decide⟩) ?_).1
  refine .step (.step (.step (.step .new ⟨trivial, trivial⟩) ⟨trivial, trivial⟩)
    ⟨?_, fun _ _ _ => rfl⟩) ⟨?_, trivial⟩
  · rintro r hr
    cases hr
    decide
  · rintro claim howner
    cases howner
    exact ⟨_, rfl, rfl⟩

/-- A quote freed by the commit phase while it holds a claim of 4. -/
def orphanedClaim : Ledger :=
  (Op.closeQuoteInCommit ⟨0, 0⟩).apply ((Op.openQuoteReserving 0 ⟨0, 0⟩ 0 1 1 5 0 4).apply
    ((Op.applyMirrorUpdate 0 10).apply (Ledger.new Config.small)))

/-- A live claim of 4 committed to a request that was never opened. -/
def unlistedClaim : Ledger :=
  (Op.commitInCommit ⟨0, 0⟩ ⟨1, 0⟩ 3).apply ((Op.openRequestReserving 0 5 [] 4).apply
    ((Op.applyMirrorUpdate 0 10).apply (Ledger.new Config.small)))

/-- Two operations of the commit phase go half way where their handle does not fit: the
    quote goes and its claim stays, and the claim leaves its expiry chain for no list. -/
theorem commitPhase_mutates_partially :
    (Run (fun l op => op.Bounded l) Config.small orphanedClaim ∧
      orphanedClaim.checkStructuralInvariants ≠ .ok ()) ∧
    Run (fun l op => op.Bounded l) Config.small unlistedClaim ∧
      unlistedClaim.checkStructuralInvariants ≠ .ok () := by
  refine ⟨⟨.step (.step (.step .new trivial) trivial) trivial, by decide⟩,
    .step (.step (.step .new trivial) trivial) ?_, by decide⟩
  rintro r hr
  cases hr
  decide

end Ledger

end RfqSettlement
