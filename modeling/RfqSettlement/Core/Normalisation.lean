/-
  RfqSettlement.Core.Normalisation

  What `release_expired` reclaims, exactly.

  A ledger can be read off its book and its links, so one reclaimed claim is described by
  what the two say; `Reclaims` collects that for a list of claims, and the walk along a
  sorted chain adds one claim a turn until it meets a live one.
-/

import RfqSettlement.Core.QuoteLinks
import RfqSettlement.Core.LedgerCalls

namespace RfqSettlement

namespace Ledger

variable {l l' : Ledger} {account now index e : Nat} {claim : ResIdx} {r : Reservation}
  {request : ReqIdx} {E : Nat → List Nat} {C : ReqIdx → List Nat} {gone : List (ResIdx × Claim)}

-- ============================================================================
-- Reachable ledgers
-- ============================================================================

/-- What a caller of the ledger keeps to: records come without a claim or a committed
    list, field writes leave both alone, and the commit phase is entered as it documents. -/
def Documented (l : Ledger) : Step → Prop
  | .call (.openQuoteReserving record _) => record.claim = none
  | .call (.openRequestReserving record _) => record.claim = none ∧ record.committedHead = none
  | .commitPhase (.commit claim request keep) =>
      (∀ r, l.reservation claim = some r → keep ≤ r.amount) ∧ (l.request request).isSome
  | .commitPhase (.closeQuote quote) => ∀ q, l.quote quote = some q → q.claim = none
  | .commitPhase (.dischargeCommitted request) => ∀ claim,
      l.ownerClaim (.request request) = some (some claim) →
        ∃ r, l.reservation claim = some r ∧ r.committedTo = some request
  | .commitPhase (.quoteMut _ write) => ∀ q, (write q).claim = q.claim
  | .commitPhase (.requestMut _ write) => ∀ q, (write q).claim = q.claim ∧
      (write q).committedHead = q.committedHead
  | _ => True

theorem free_snd (l : Ledger) (account now : Nat) :
    (l.free account now).2 = (l.releaseExpired account now).2 := by
  unfold Ledger.free
  generalize l.releaseExpired account now = answer
  obtain ⟨answer, l'⟩ := answer
  cases answer with
  | error err => rfl
  | ok n =>
      dsimp only
      cases l'.account account <;> rfl

theorem modifyRequest_congr {f g : Request → Request} (h : ∀ q, l.request request = some q → f q = g q) :
    l.modifyRequest request f = l.modifyRequest request g := by
  unfold modifyRequest
  congr 1
  cases hq : l.requests.get request with
  | none => rw [Slab.modify_of_stale hq, Slab.modify_of_stale hq]
  | some q => rw [Slab.modify_of_get hq, Slab.modify_of_get hq, h q hq]

theorem Intact.requestMut {write : Request → Request} (h : l.Intact)
    (hclaim : ∀ q, (write q).claim = q.claim) (hhead : ∀ q, (write q).committedHead = q.committedHead) :
    (l.modifyRequest request write).Intact := by
  cases hq : l.request request with
  | none =>
      rw [show l.modifyRequest request write = l from by
        unfold Ledger.modifyRequest
        rw [Slab.modify_of_stale hq]]
      exact h
  | some q =>
      -- what is written may depend on the list's head, which the book does not see
      rw [modifyRequest_congr (g := fun x =>
        { write q with claim := x.claim, committedHead := x.committedHead }) fun x hx => by
          obtain rfl : q = x := Option.some.inj (hq.symm.trans hx)
          rw [← hclaim q, ← hhead q]]
      exact h.modifyRequest (fun _ => rfl) (fun _ => rfl) fun _ => rfl

theorem Intact.step {step : Step} (h : l.Intact) (hok : l.Documented step) : (step.apply l).Intact := by
  cases step with
  | call call =>
      cases call with
      | reserve account amount expiresAt owner => exact h.reserve_intact
      | openQuoteReserving record amount => exact h.openQuoteReserving_intact hok
      | openRequestReserving record amount => exact h.openRequestReserving_intact hok.1 hok.2
      | release claim => exact h.release_intact
      | commit claim request => exact h.commit_intact
      | closeQuote quote => exact h.closeQuote
      | closeRequest request => exact h.closeRequest
      | registerContract contract eventDate =>
          show (l.registerContract contract eventDate).2.Intact
          unfold Ledger.registerContract
          repeat' split
          all_goals first
            | exact h
            | exact ⟨⟨h.wired.reservations, h.wired.requests, h.wired.quotes, h.wired.threads⟩, h.balanced⟩
      | applyMirrorUpdate account amount => exact h.applyMirrorUpdate
      | releaseExpired account now => exact h.releaseExpired_intact
      | free account now =>
          show (l.free account now).2.Intact
          rw [free_snd]
          exact h.releaseExpired_intact
  | commitPhase op =>
      cases op with
      | release claim => exact h.apply (.releaseInCommit claim) trivial trivial
      | commit claim request keep => exact h.apply (.commitInCommit claim request keep) hok.1 fun _ _ _ => hok.2
      | closeQuote quote => exact h.apply (.closeQuoteInCommit quote) trivial hok
      | dischargeCommitted request => exact h.apply (.dischargeCommitted request) hok trivial
      | quoteMut quote write => exact h.modifyQuote hok
      | requestMut request write => exact h.requestMut (fun q => (hok q).1) fun q => (hok q).2

theorem intact_of_reached {config : Config} (hconfig : config.Storable)
    (h : Reached Documented config l) : l.Intact := by
  induction h with
  | new => exact intact_new hconfig
  | step _ hok ih => exact ih.step hok

-- ============================================================================
-- Reading a ledger off its book and links
-- ============================================================================

theorem account_ext (hbook : l'.book.totals account = l.book.totals account)
    (hlinks : l'.links.ends account = l.links.ends account) : l'.account account = l.account account := by
  simp only [book, links] at hbook hlinks
  generalize l.account account = x at hbook hlinks ⊢
  generalize l'.account account = x' at hbook hlinks ⊢
  cases x with
  | none => simpa using hbook
  | some m =>
      obtain ⟨m', rfl, htotals⟩ := Option.map_eq_some_iff.mp hbook
      obtain ⟨free, reserved, committed, head, tail⟩ := m
      obtain ⟨free', reserved', committed', head', tail'⟩ := m'
      simp_all [MirroredBalance.totals]

theorem request_ext {x : Option Request} (hbook : l'.book.requests request = x.map Request.unlinked)
    (hlinks : l'.links.listHead request = x.map Request.committedHead) : l'.request request = x := by
  simp only [book, links] at hbook hlinks
  generalize l'.request request = x' at hbook hlinks ⊢
  cases x with
  | none => simpa using hbook
  | some q =>
      obtain ⟨q', rfl, hunlinked⟩ := Option.map_eq_some_iff.mp hbook
      obtain ⟨requester, deadline, state, legs, claim, head⟩ := q
      obtain ⟨requester', deadline', state', legs', claim', head'⟩ := q'
      simp_all [Request.unlinked]

theorem reservation_ext (hbook : l'.book.claims claim = some r.toClaim)
    (hlinks : l'.links.node claim.index = some r.neighbours) : l'.reservation claim = some r := by
  obtain ⟨r', hr', hsame⟩ := reservation_of_claims hbook
  rw [hr']
  have hat : l'.reservationAt claim.index = some r' := Slab.valueAt_of_get hr'
  simp only [links, hat, Option.map_some, Option.some.injEq] at hlinks
  obtain ⟨account, amount, owner, links⟩ := r
  obtain ⟨account', amount', owner', links'⟩ := r'
  cases links <;> cases links' <;>
    simp_all [Reservation.toClaim, ClaimLinks.status, Reservation.neighbours]

-- ============================================================================
-- What is reclaimed
-- ============================================================================

/-- `l'` is `l` without the claims `gone` of `account`. -/
structure Reclaims (account : Nat) (gone : List (ResIdx × Claim)) (l l' : Ledger) : Prop where
  claims : ∀ claim, (l'.reservation claim).map Reservation.toClaim =
    if claim ∈ gone.map Prod.fst then none else (l.reservation claim).map Reservation.toClaim
  others : ∀ claim r, l.reservation claim = some r → r.account ≠ account ∨ r.isCommitted = true →
    l'.reservation claim = some r
  accounts : ∀ a, a ≠ account → l'.account a = l.account a
  totals : ∀ m, l.account account = some m → ∃ m', l'.account account = some m' ∧
    m'.free = m.free ∧ m'.committed = m.committed ∧
      m.reserved = m'.reserved + (gone.map fun v => v.2.amount).sum
  requests : ∀ request, l'.request request = (l.request request).map fun q =>
    if .request request ∈ gone.map (fun v => v.2.owner) then q.setClaim none else q
  quotes : ∀ quote, l'.quote quote = (l.quote quote).map fun q =>
    if .quote quote ∈ gone.map (fun v => v.2.owner) then q.setClaim none else q
  kept : Kept l l'

theorem reclaims_nil (l : Ledger) (account : Nat) : Reclaims account [] l l where
  claims := by simp
  others _ _ hr _ := hr
  accounts _ _ := rfl
  totals m hm := ⟨m, hm, rfl, rfl, rfl⟩
  requests := by simp
  quotes := by simp
  kept := .refl l

theorem Reclaims.trans {l'' : Ledger} {gone' : List (ResIdx × Claim)} (h : Reclaims account gone l l')
    (h' : Reclaims account gone' l' l'') : Reclaims account (gone ++ gone') l l'' where
  claims claim := by
    rw [h'.claims, h.claims]
    simp only [List.map_append, List.mem_append]
    by_cases h₁ : claim ∈ gone.map Prod.fst <;> by_cases h₂ : claim ∈ gone'.map Prod.fst <;>
      simp only [h₁, h₂, or_self, or_true, true_or, if_true, if_false]
  others claim r hr hout := h'.others claim r (h.others claim r hr hout) hout
  accounts a ha := (h'.accounts a ha).trans (h.accounts a ha)
  totals m hm := by
    obtain ⟨m₁, hm₁, hfree₁, hcommitted₁, hreserved₁⟩ := h.totals m hm
    obtain ⟨m₂, hm₂, hfree₂, hcommitted₂, hreserved₂⟩ := h'.totals m₁ hm₁
    refine ⟨m₂, hm₂, hfree₂.trans hfree₁, hcommitted₂.trans hcommitted₁, ?_⟩
    rw [List.map_append, List.sum_append]
    omega
  requests request := by
    rw [h'.requests, h.requests, Option.map_map]
    congr 1
    funext q
    simp only [Function.comp, List.map_append, List.mem_append]
    by_cases h₁ : .request request ∈ gone.map fun v => v.2.owner <;>
      by_cases h₂ : .request request ∈ gone'.map fun v => v.2.owner <;>
        simp only [h₁, h₂, or_self, or_true, true_or, if_true, if_false, Request.setClaim]
  quotes quote := by
    rw [h'.quotes, h.quotes, Option.map_map]
    congr 1
    funext q
    simp only [Function.comp, List.map_append, List.mem_append]
    by_cases h₁ : .quote quote ∈ gone.map fun v => v.2.owner <;>
      by_cases h₂ : .quote quote ∈ gone'.map fun v => v.2.owner <;>
        simp only [h₁, h₂, or_self, or_true, true_or, if_true, if_false, Quote.setClaim]
  kept := h.kept.trans h'.kept

/-- One reserved claim goes: nothing else does, and only its chain is relinked. -/
theorem Intact.reclaims (h : l.Intact) (ht : l.links.Threads none E C)
    (hr : l.reservation claim = some r) (hs : r.toClaim.status = .reserved e) :
    Reclaims r.account [(claim, r.toClaim)] l (l.reclaim r.account claim r) := by
  obtain ⟨m, hm⟩ := h.account_of_claim hr
  have hends : (l.links.ends r.account).isSome := by rw [isSome_ends, hm]; rfl
  have hfrees := h.reclaim hr hs
  have hbook := hfrees.book
  have hlinks := links_reclaim hr (by rw [hm]; rfl)
  have hlink : l.links.claim claim.index = some r.toClaim := by
    simp [links, reservationAt, Slab.valueAt_of_get hr]
  have hmem : claim.index ∈ E r.account :=
    (ht.expiry_mem _ _).mpr ⟨by simp, _, e, hlink, rfl, hs⟩
  obtain ⟨xs, ys, hE⟩ := List.append_of_mem hmem
  have hholds := ht.expiry r.account hends
  rw [hE] at hholds
  generalize l.reclaim r.account claim r = l' at hfrees hbook hlinks ⊢
  have hclaims : ∀ c, l'.book.claims c = if c = claim then none else l.book.claims c := by
    intro c
    rw [hbook]
    simp only [Book.free, Book.dropClaim, Book.claims_setOwnerClaim, Function.update_apply]
    rfl
  refine ⟨fun c => ?_, fun c r' hr' hout => ?_, fun a ha => ?_, fun m' hm' => ?_, fun q => ?_,
    fun q => ?_, hfrees.kept⟩
  · show l'.book.claims c = _
    rw [hclaims]
    simp [book]
  · -- a claim off the chain keeps its links too
    have hne : c ≠ claim := by
      rintro rfl
      obtain rfl : r' = r := Option.some.inj (hr'.symm.trans hr)
      rcases hout with hout | hout
      · exact hout rfl
      · rw [(Reservation.isCommitted_eq_false).mpr ⟨e, hs⟩] at hout
        cases hout
    have hlink' : l.links.claim c.index = some r'.toClaim := by
      simp [links, reservationAt, Slab.valueAt_of_get hr']
    have hnot : c.index ∉ xs ++ claim.index :: ys := by
      rw [← hE, ht.expiry_mem]
      rintro ⟨-, k, e', hk, hka, hks⟩
      obtain rfl : r'.toClaim = k := Option.some.inj (hlink'.symm.trans hk)
      rcases hout with hout | hout
      · exact hout hka
      · rw [(Reservation.isCommitted_eq_false).mpr ⟨e', hks⟩] at hout
        cases hout
    have hindex : c.index ≠ claim.index := fun heq => hnot (by simp [heq])
    refine reservation_ext ?_ ?_
    · rw [hclaims, if_neg hne, book_claims hr']
    · rw [hlinks]
      simp only [LinkView.dropSlot, LinkView.withChain, Function.update_of_ne hindex]
      rw [Intrusive.Chain.unlink_node_of_notMem hholds hnot]
      simp [LinkView.chain, links, reservationAt, Slab.valueAt_of_get hr']
  · refine account_ext ?_ ?_
    · rw [hbook]
      simp [Book.free, Book.dropClaim, Book.modifyTotals, Function.update_of_ne ha, Reservation.toClaim]
    · rw [hlinks]
      simp [LinkView.dropSlot, LinkView.withChain, ha]
  · obtain rfl : m = m' := Option.some.inj (hm.symm.trans hm')
    have hle := h.amount_le_reserved hr hs hm
    have htotals : l'.book.totals r.account = some ⟨m.free, m.reserved - r.amount, m.committed⟩ := by
      rw [hbook]
      simp [Book.free, Book.dropClaim, Book.modifyTotals, Reservation.toClaim, book, hm,
        MirroredBalance.totals]
    obtain ⟨m', hm', htotals'⟩ := Option.map_eq_some_iff.mp htotals
    simp only [MirroredBalance.totals, Totals.mk.injEq] at htotals'
    refine ⟨m', hm', htotals'.1, htotals'.2.2, ?_⟩
    show m.reserved = m'.reserved + (r.amount + 0)
    omega
  · refine request_ext ?_ ?_
    · rw [hbook]
      simp only [Book.free, Book.dropClaim]
      cases howner : r.owner with
      | quote quote => simp [Book.setOwnerClaim, Book.modifyQuote, Book.modifyTotals, book,
          Reservation.toClaim, howner]
      | request request =>
          simp only [Book.setOwnerClaim, Book.modifyRequest, Book.modifyTotals, book,
            Reservation.toClaim, howner, Function.update_apply, List.map_cons, List.map_nil,
            List.mem_singleton, ResOwner.request.injEq]
          split
          next heq => subst heq; simp [Option.map_map, Function.comp_def, Request.unlinked, Request.setClaim]
          next heq => simp
    · rw [hlinks]
      simp only [LinkView.dropSlot, LinkView.withChain, links, Option.map_map]
      congr 1
      funext x
      simp only [Function.comp]
      split <;> rfl
  · show l'.book.quotes q = _
    rw [hbook]
    simp only [Book.free, Book.dropClaim]
    cases howner : r.owner with
    | quote quote =>
        simp only [Book.setOwnerClaim, Book.modifyQuote, Book.modifyTotals, book,
          Reservation.toClaim, howner, Function.update_apply, List.map_cons, List.map_nil,
          List.mem_singleton, ResOwner.quote.injEq]
        split
        next heq => subst heq; rfl
        next heq => simp
    | request request => simp [Book.setOwnerClaim, Book.modifyRequest, Book.modifyTotals, book,
        Reservation.toClaim, howner]

-- ============================================================================
-- The walk
-- ============================================================================

/-- The claims from a cursor on, by index, along their forward links. -/
def chainFrom (l : Ledger) : Nat → Link → List Nat
  | fuel + 1, some index =>
    index :: l.chainFrom fuel (((l.reservationAt index).map fun r => r.neighbours.2).getD none)
  | _, _ => []

/-- An account's expiry chain, by index. -/
def expiryChain (l : Ledger) (account : Nat) : List Nat :=
  l.chainFrom l.reservations.capacity (((l.account account).map fun m => m.expiryHead).getD none)

theorem chainFrom_of_segment {is : List Nat} {p : Link} {fuel : Nat}
    (hseg : Intrusive.Segment l.links.node p is none) (hfuel : is.length ≤ fuel) :
    l.chainFrom fuel is.head? = is := by
  induction is generalizing p fuel with
  | nil => cases fuel <;> rfl
  | cons i is ih =>
      obtain ⟨hnode, hrest⟩ := hseg
      obtain ⟨fuel, rfl⟩ : ∃ n, fuel = n + 1 := ⟨fuel - 1, by simp at hfuel; omega⟩
      obtain ⟨r, hr, hneighbours⟩ := Option.map_eq_some_iff.mp hnode
      rw [List.head?_cons, chainFrom, hr, Option.map_some, hneighbours, Option.getD_some, Option.or_none,
        ih hrest (by simpa using hfuel)]

/-- Chains are read off the threads. -/
theorem expiryChain_of_threads (ht : l.links.Threads none E C) (ha : (l.account account).isSome) :
    l.expiryChain account = E account := by
  have hholds := ht.expiry account (by rwa [isSome_ends])
  have hhead : ((l.account account).map fun m => m.expiryHead).getD none = (E account).head? := by
    rw [← hholds.head]
    simp [LinkView.chain, links, Function.comp_def]
  rw [expiryChain, hhead]
  exact chainFrom_of_segment hholds.segment (expiry_length ht ha)

theorem Reclaims.known (h : Reclaims account gone l l') (ha : (l.account account).isSome) :
    (l'.account account).isSome := by
  obtain ⟨m, hm⟩ := Option.isSome_iff_exists.mp ha
  obtain ⟨m', hm', -⟩ := h.totals m hm
  rw [hm']
  rfl

/-- The walk takes the dead front of the chain, one claim a turn. -/
theorem Intact.walk_expired (now fuel count : Nat) (h : l.Intact) (ht : l.links.Threads none E C)
    (ha : (l.account account).isSome) (hfuel : (E account).length ≤ fuel) :
    ∃ gone l' live, l.releaseExpiredFrom account now fuel (E account).head? count =
        (count + gone.length, l') ∧ l'.Intact ∧ Reclaims account gone l l' ∧
      E account = gone.map (fun v => v.1.index) ++ live ∧
      l'.links.Threads none (Function.update E account live) C ∧
      (∀ v ∈ gone, ∃ r, l.reservation v.1 = some r ∧ v.2 = r.toClaim ∧ r.isExpiredAt now = some true) ∧
      ∀ i ∈ live, now < l.links.expiry i := by
  induction fuel generalizing l E count with
  | zero =>
      have hnil : E account = [] := List.eq_nil_of_length_eq_zero (by omega)
      refine ⟨[], l, [], ?_, h, reclaims_nil l account, hnil, ?_, by simp, by simp⟩
      · rw [hnil]
        rfl
      · rwa [← hnil, Function.update_eq_self]
  | succ fuel ih =>
      cases hE : E account with
      | nil =>
          refine ⟨[], l, [], rfl, h, reclaims_nil l account, rfl, ?_, by simp, by simp⟩
          rwa [← hE, Function.update_eq_self]
      | cons i ys =>
          have hi : i ∈ E account := by simp [hE]
          obtain ⟨r, e, prev, next, hr, rfl, hlinks, hexpiry⟩ := reservationAt_of_mem ht hi
          obtain ⟨handle, rfl, hget⟩ := Slab.valueAt_eq_some.mp hr
          have hhandle : l.reservations.handleAt handle.index = some handle :=
            Slab.handleAt_of_get hget
          have hs : r.toClaim.status = .reserved e := by
            simp [Reservation.toClaim, ClaimLinks.status, hlinks]
          have hsorted := ht.sorted r.account
          rw [hE, List.pairwise_cons] at hsorted
          simp only [List.head?_cons, Ledger.releaseExpiredFrom, hr,
            Reservation.isExpiredAt_eq now hs, hhandle]
          by_cases he : e ≤ now
          · simp only [he, decide_true]
            have hreclaims := h.reclaims ht hget hs
            have hthreads := (ht.unlink [] (by rwa [isSome_ends]) hE).dropSlot
            rw [← links_reclaim hget ha] at hthreads
            have hnext : r.neighbours.2 = (Function.update E r.account ([] ++ ys) r.account).head? := by
              have hnode := (ht.expiry r.account (by rwa [isSome_ends])).segment
              rw [hE] at hnode
              have hhead := hnode.1
              simp only [LinkView.chain, links, hr, Option.map_some, Option.some.injEq] at hhead
              rw [hhead, Option.or_none, Function.update_self, List.nil_append]
            obtain ⟨gone, l', live, hwalk, h', hgone, hsplit, hthreads', hdead, hlive⟩ :=
              ih (count + 1) (h.reclaim hget hs).intact hthreads (hreclaims.known ha) (by
                rw [Function.update_self]
                simpa [hE] using hfuel)
            rw [Function.update_self, List.nil_append] at hsplit
            rw [Function.update_idem] at hthreads'
            refine ⟨(handle, r.toClaim) :: gone, l', live, ?_, h', hreclaims.trans hgone, ?_, hthreads',
              ?_, ?_⟩
            · rw [hnext, hwalk]
              simp only [List.length_cons, Prod.mk.injEq, and_true]
              omega
            · rw [hsplit]
              rfl
            · intro v hv
              rcases List.mem_cons.mp hv with rfl | hv
              · exact ⟨r, hget, rfl, by rw [Reservation.isExpiredAt_eq now hs, decide_eq_true he]⟩
              · -- a claim found later stood there before
                obtain ⟨r', hr', hv', hexpired⟩ := hdead v hv
                have hclaim := hreclaims.claims v.1
                rw [hr', Option.map_some] at hclaim
                split at hclaim
                · cases hclaim
                · obtain ⟨r₀, hr₀, hsame⟩ := Option.map_eq_some_iff.mp hclaim.symm
                  refine ⟨r₀, hr₀, hv'.trans hsame.symm, ?_⟩
                  obtain ⟨e', he'⟩ : ∃ e', r'.toClaim.status = .reserved e' := by
                    apply Reservation.isCommitted_eq_false.mp
                    obtain ⟨_, _, _, links⟩ := r'
                    cases links
                    · rfl
                    · cases hexpired
                  rw [Reservation.isExpiredAt_eq now he'] at hexpired
                  rw [Reservation.isExpiredAt_eq now (hsame ▸ he')]
                  exact hexpired
            · intro j hj
              have hj' : j ∈ ys := by
                rw [hsplit]
                exact List.mem_append_right _ hj
              have hne : j ≠ handle.index := by
                rintro rfl
                have hnodup := (ht.expiry r.account (by rwa [isSome_ends])).nodup
                rw [hE] at hnodup
                exact (List.nodup_cons.mp hnodup).1 hj'
              have hlater := hlive j hj
              rw [links_reclaim hget ha] at hlater
              simpa [LinkView.expiry, LinkView.dropSlot, LinkView.withChain,
                Function.update_of_ne hne] using hlater
          · simp only [he, decide_false]
            refine ⟨[], l, handle.index :: ys, rfl, h, reclaims_nil l r.account, rfl, ?_, by simp, ?_⟩
            · rwa [← hE, Function.update_eq_self]
            · intro j hj
              rcases List.mem_cons.mp hj with rfl | hj
              · omega
              · have hle := hsorted.1 j hj
                omega

/-- With a live front there is nothing to do. -/
theorem releaseExpired_of_live (ht : l.links.Threads none E C)
    (ha : (l.account account).isSome) (hlive : ∀ i ∈ E account, now < l.links.expiry i) :
    l.releaseExpired account now = (.ok 0, l) := by
  obtain ⟨m, hm⟩ := Option.isSome_iff_exists.mp ha
  have hholds := ht.expiry account (by rwa [isSome_ends])
  have hhead : m.expiryHead = (E account).head? := by
    rw [← hholds.head]
    simp [LinkView.chain, links, hm]
  rw [Ledger.releaseExpired, hm]
  dsimp only
  rw [hhead]
  cases hE : E account with
  | nil => rfl
  | cons i is =>
      have hi : i ∈ E account := by simp [hE]
      obtain ⟨r, e, prev, next, hr, -, hlinks, hexpiry⟩ := reservationAt_of_mem ht hi
      have hs : r.toClaim.status = .reserved e := by simp [Reservation.toClaim, ClaimLinks.status, hlinks]
      have hlate := hlive i hi
      simp only [List.head?_cons, Ledger.releaseExpiredFrom, hr, Reservation.isExpiredAt_eq now hs]
      rw [decide_eq_false (by omega)]

/-- Whether the claim at an index of a chain is dead. -/
def deadAt (l : Ledger) (now index : Nat) : Bool :=
  (l.reservationAt index).any fun r => r.isExpiredAt now == some true

theorem deadAt_eq (ht : l.links.Threads none E C) (hi : index ∈ E account) :
    l.deadAt now index = decide (l.links.expiry index ≤ now) := by
  obtain ⟨r, e, prev, next, hr, -, hlinks, hexpiry⟩ := reservationAt_of_mem ht hi
  have hs : r.toClaim.status = .reserved e := by simp [Reservation.toClaim, ClaimLinks.status, hlinks]
  rw [deadAt, hr, Option.any_some, Reservation.isExpiredAt_eq now hs, hexpiry]
  by_cases he : e ≤ now <;> simp [he]

/-- `release_expired` on a known account removes exactly its reserved claims that are dead
    by `now`, keeps the rest of the chain in order and everything else as it was, and has
    nothing left to do at any instant up to `now`. -/
theorem releaseExpired_exact {config : Config} (hconfig : config.Storable)
    (h : Reached Documented config l) (hknown : (l.account account).isSome) (now : Nat) :
    ∃ gone l', l.releaseExpired account now = (.ok gone.length, l') ∧ (gone.map Prod.fst).Nodup ∧
      (∀ claim k, (claim, k) ∈ gone ↔ ∃ r, l.reservation claim = some r ∧ k = r.toClaim ∧
        r.account = account ∧ r.isExpiredAt now = some true) ∧
      Reclaims account gone l l' ∧
      l'.expiryChain account = (l.expiryChain account).filter (fun i => !l.deadAt now i) ∧
      ∀ now' ≤ now, l'.releaseExpired account now' = (.ok 0, l') := by
  have hintact := intact_of_reached hconfig h
  obtain ⟨m, hm⟩ := Option.isSome_iff_exists.mp hknown
  obtain ⟨E, C, ht⟩ := hintact.wired.threads
  have hholds := ht.expiry account (by rwa [isSome_ends])
  have hhead : m.expiryHead = (E account).head? := by
    rw [← hholds.head]
    simp [LinkView.chain, links, hm]
  have hlength := expiry_length ht hknown
  obtain ⟨gone, l', live, hwalk, hintact', hreclaims, hsplit, ht', hdead, hlive⟩ :=
    hintact.walk_expired now (l.reservations.capacity + 1) 0 ht hknown (by omega)
  have hnodup := hholds.nodup
  rw [hsplit] at hnodup
  have hexpired : ∀ v ∈ gone, v.1.index ∈ E account := by
    intro v hv
    rw [hsplit]
    exact List.mem_append_left _ (List.mem_map.mpr ⟨v, hv, rfl⟩)
  have hlater : ∀ i ∈ live, l'.links.expiry i = l.links.expiry i := by
    intro i hi
    obtain ⟨k, e, hk, -, hs⟩ := ht'.claim_of_mem (a := account) (i := i) (by
      rw [Function.update_self]
      exact hi)
    obtain ⟨r, hr, rfl⟩ := Option.map_eq_some_iff.mp hk
    obtain ⟨claim, rfl, hget⟩ := Slab.valueAt_eq_some.mp hr
    have hclaim := hreclaims.claims claim
    rw [show l'.reservation claim = some r from hget, Option.map_some] at hclaim
    split at hclaim
    · cases hclaim
    · obtain ⟨r₀, hr₀, hsame⟩ := Option.map_eq_some_iff.mp hclaim.symm
      have hk₀ : l.links.claim claim.index = some r₀.toClaim := by
        simp [links, reservationAt, Slab.valueAt_of_get hr₀]
      rw [LinkView.expiry_eq hk hs, LinkView.expiry_eq hk₀ (hsame ▸ hs)]
  refine ⟨gone, l', ?_, ?_, fun claim k => ⟨fun hmem => ?_, ?_⟩, hreclaims, ?_, fun now' hle => ?_⟩
  · rw [releaseExpired, hm]
    dsimp only
    rw [hhead, hwalk, Nat.zero_add]
  · have hindices := (List.nodup_append.mp hnodup).1
    rw [← Function.comp_def Handle.index Prod.fst, ← List.map_map] at hindices
    exact hindices.of_map _
  · obtain ⟨r, hr, hk, hexp⟩ := hdead _ hmem
    refine ⟨r, hr, hk, ?_, hexp⟩
    obtain ⟨k', e, hk', hka, -⟩ := ht.claim_of_mem (hexpired _ hmem)
    have hlink : l.links.claim claim.index = some r.toClaim := by
      simp [links, reservationAt, Slab.valueAt_of_get hr]
    obtain rfl : r.toClaim = k' := Option.some.inj (hlink.symm.trans hk')
    exact hka
  · -- a dead claim is on the chain, and not in the part that is left
    rintro ⟨r, hr, rfl, rfl, hexp⟩
    have hlink : l.links.claim claim.index = some r.toClaim := by
      simp [links, reservationAt, Slab.valueAt_of_get hr]
    obtain ⟨e, hs⟩ : ∃ e, r.toClaim.status = .reserved e := by
      apply Reservation.isCommitted_eq_false.mp
      obtain ⟨_, _, _, links⟩ := r
      cases links
      · rfl
      · cases hexp
    rw [Reservation.isExpiredAt_eq now hs, Option.some.injEq, decide_eq_true_eq] at hexp
    have hmem : claim.index ∈ E r.account := (ht.expiry_mem _ _).mpr ⟨by simp, _, e, hlink, rfl, hs⟩
    rw [hsplit] at hmem
    rcases List.mem_append.mp hmem with hmem | hmem
    · obtain ⟨v, hv, hindex⟩ := List.mem_map.mp hmem
      obtain ⟨r', hr', hk', -⟩ := hdead v hv
      have hsame : v.1 = claim := Slab.eq_of_index_eq (s := l.reservations)
        (by rw [show l.reservations.get v.1 = some r' from hr']; rfl)
        (by rw [show l.reservations.get claim = some r from hr]; rfl) hindex
      obtain ⟨c, k⟩ := v
      obtain rfl : c = claim := hsame
      obtain rfl : r' = r := Option.some.inj (hr'.symm.trans hr)
      obtain rfl : k = r'.toClaim := hk'
      exact hv
    · have hlate := hlive _ hmem
      rw [LinkView.expiry_eq hlink hs] at hlate
      omega
  · rw [expiryChain_of_threads ht hknown, expiryChain_of_threads ht' (hreclaims.known hknown),
      Function.update_self, hsplit, List.filter_append]
    have hfront : (gone.map fun v => v.1.index).filter (fun i => !l.deadAt now i) = [] := by
      rw [List.filter_eq_nil_iff]
      intro i hi
      obtain ⟨v, hv, rfl⟩ := List.mem_map.mp hi
      obtain ⟨r, hr, -, hexp⟩ := hdead v hv
      have hat : l.reservationAt v.1.index = some r := Slab.valueAt_of_get hr
      simp [deadAt, hat, hexp]
    have hback : live.filter (fun i => !l.deadAt now i) = live := by
      rw [List.filter_eq_self]
      intro i hi
      have hmem : i ∈ E account := by
        rw [hsplit]
        exact List.mem_append_right _ hi
      have hlate := hlive i hi
      rw [deadAt_eq ht hmem, decide_eq_false (by omega)]
      rfl
    rw [hfront, hback, List.nil_append]
  · refine releaseExpired_of_live ht' (hreclaims.known hknown) fun i hi => ?_
    rw [Function.update_self] at hi
    have hlate := hlive i hi
    rw [hlater i hi]
    omega

/-- Two claims of one account, one of them dead. -/
theorem releaseExpired_exact_small : ∃ l', ((Step.call (.openQuoteReserving (Quote.new 0 ⟨0, 0⟩ 0 1 1 9 1) 2)).apply
    ((Step.call (.openRequestReserving (Request.new 0 5 []) 4)).apply
      ((Step.call (.applyMirrorUpdate 0 10)).apply (Ledger.new Config.small)))).releaseExpired 0 7 =
        (.ok 1, l') ∧ l'.expiryChain 0 = [1] := by
  have hnew : Reached Documented Config.small (Ledger.new Config.small) := .new
  have hfunded := hnew.next (.call (.applyMirrorUpdate 0 10)) trivial
  have hasked := hfunded.next (.call (.openRequestReserving (Request.new 0 5 []) 4)) ⟨rfl, rfl⟩
  have hquoted := hasked.next (.call (.openQuoteReserving (Quote.new 0 ⟨0, 0⟩ 0 1 1 9 1) 2)) rfl
  obtain ⟨gone, l', heq, -, -, -, hchain, -⟩ := releaseExpired_exact
    (show Config.small.Storable from ⟨by decide, by decide, by decide⟩) hquoted
    (show (Ledger.account _ 0).isSome from by decide) 7
  refine ⟨l', Prod.ext ?_ (congrArg Prod.snd heq :), hchain.trans (by decide)⟩
  show _ = Except.ok 1
  decide

end Ledger

end RfqSettlement
