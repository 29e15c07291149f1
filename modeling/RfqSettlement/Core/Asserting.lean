/-
  RfqSettlement.Core.Asserting

  The engine thread's own assertion, `check_claim_coverage_for` of every account a command
  names (`runtime/src/venue.rs`, `run_engine`).

  A mirror update is exempt from it, since it may legitimately put an account's mirrored
  balance below the claims already standing; the commands that find the account so are
  not.  `Engine.Bears` is when such a command goes by unnoticed: what it leaves of the
  claims it finds is within the balance.
-/

import RfqSettlement.Core.Claimed
import RfqSettlement.Core.Coverage
import RfqSettlement.Core.LedgerCheck
import RfqSettlement.Core.Standing
import RfqSettlement.Core.Turns

namespace RfqSettlement

-- ============================================================================
-- The assertion
-- ============================================================================

namespace Ledger

/-- `check_claim_coverage_for`: claims within the mirrored balance, for one account. -/
def checkClaimCoverageFor (l : Ledger) (account : Nat) : Except InvariantViolation Unit :=
  match l.account account with
  | none => .ok ()
  | some entry =>
    match checkedAdd entry.reserved entry.committed with
    | none => .error (.claimCoverageBroken account)
    | some claimed =>
      if entry.free < claimed then .error (.claimCoverageBroken account) else .ok ()

variable {l l' : Ledger} {account : Nat} {request : ReqIdx}

theorem checkClaimCoverageFor_of_covered (h : l.Intact)
    (hcovered : ∀ t, l.market.totals account = some t → t.claimed ≤ t.free) :
    l.checkClaimCoverageFor account = .ok () := by
  unfold checkClaimCoverageFor
  cases hm : l.account account with
  | none => rfl
  | some m =>
      have ht := book_totals hm
      have hbounded : m.reserved + m.committed ≤ u64Max := h.balanced.bounded account _ ht
      have hle : m.reserved + m.committed ≤ m.free := hcovered _ ht
      dsimp only
      rw [checkedAdd_eq_some.mpr ⟨hbounded, rfl⟩]
      dsimp only
      rw [if_neg (by omega)]

end Ledger

/-- Whether a command is a mirror update. -/
def Command.isCredit : Command → Bool
  | .creditAccount _ _ => true
  | _ => false

namespace Engine

/-- The debug assertion of the loop, once `command` has been applied. -/
def coverageAsserted (e : Engine) (command : Command) : Bool :=
  command.isCredit || (e.touchedAccounts command).all fun account =>
    decide (e.ledger.checkClaimCoverageFor account = .ok ())

/-- The assertion after every command of a run. -/
def Asserted : Engine → List Input → Prop
  | _, [] => True
  | e, input :: inputs =>
    (e.step input).coverageAsserted input.command = true ∧ (e.step input).Asserted inputs

end Engine

-- ============================================================================
-- What a command leaves of the claims it finds
-- ============================================================================

/-- Whether an owner is a request or a quote on it. -/
def Ledger.concerns (l : Ledger) (request : ReqIdx) : ResOwner → Bool
  | .request r => decide (r = request)
  | .quote quote => (l.quote quote).any fun q => decide (q.request = request)

namespace Engine

/-- Whether a reject of `request` passes its checks. -/
def mayReject (e : Engine) (request : ReqIdx) (events : EventBuffer) : Bool :=
  (e.ledger.request request).any fun record => decide (record.state = .opened) &&
    events.headroom (record.nLegs * e.config.maxQuotesPerLeg)

/-- The request a report resolves, if it passes its checks. -/
def mayResolve (e : Engine) (reported : Nonce) (status : TxStatus) (events : EventBuffer) :
    Option ReqIdx :=
  (resolveNonce e.ledger reported).filter fun request =>
    (e.ledger.request request).any fun record =>
      match record.state with
      | .settling nonce _ => decide (nonce = reported) && status.isTerminal &&
          events.headroom (if status = .reverted then record.nLegs + 1 else 1)
      | _ => false

/-- What `command` leaves of a claim: an accept keeps the requester's cost and the winners'
    claims, a reject none on the request, a resolution none committed to it, and a quote
    lets go of the one it replaces. -/
def leaves (e : Engine) (command : Command) (now : Nat) (events : EventBuffer) (k : Claim) : Nat :=
  match command with
  | .rejectRequest request =>
    if e.mayReject request events && e.ledger.concerns request k.owner then 0 else k.amount
  | .acceptRequest request expected =>
    match e.checkAccept request expected now events with
    | .error _ => k.amount
    | .ok a =>
      if k.owner = .request request then a.total
      else if e.ledger.concerns request k.owner &&
          !(a.plan.map fun winner => ResOwner.quote winner.quote).contains k.owner then 0
      else k.amount
  | .pollSettlement nonce status =>
    if (e.mayResolve nonce status events).any fun request =>
        decide (k.status = .committed request) then 0
    else k.amount
  | .submitQuote maker request leg price size expiresAt =>
    match e.checkQuote maker request leg price size expiresAt now events with
    | .ok (some standing, _) => if k.owner = .quote standing then 0 else k.amount
    | _ => k.amount
  | _ => k.amount

/-- What `command` leaves of an account's claims. -/
def left (e : Engine) (command : Command) (now : Nat) (events : EventBuffer) (account : Nat) : Nat :=
  e.ledger.reservations.sum fun r =>
    if r.account = account then e.leaves command now events r.toClaim else 0

/-- A command that does not credit finds every account it names, its expired claims gone,
    with claims of which it leaves no more than the mirrored balance. -/
def Bears (e : Engine) (input : Input) : Prop :=
  input.command.isCredit = false → ∀ account ∈ e.touchedAccounts input.command, ∀ m,
    (e.normalisedFor input).ledger.account account = some m →
      (e.normalisedFor input).left input.command input.now (.withCapacity input.capacity) account ≤
        m.free

end Engine

-- ============================================================================
-- Adding up
-- ============================================================================

theorem List.sum_map_le_of_getElem? {β : Type} {w w' : β → Nat} {xs ys : List β}
    (h : ∀ (i : Nat) x, xs[i]? = some x → w' x ≠ 0 → ∃ y, ys[i]? = some y ∧ w' x ≤ w y) :
    (xs.map w').sum ≤ (ys.map w).sum := by
  induction xs generalizing ys with
  | nil => simp
  | cons x xs ih =>
      cases ys with
      | nil =>
          have hzero : ∀ n ∈ (x :: xs).map w', n = 0 := by
            intro n hn
            obtain ⟨x', hx', rfl⟩ := List.mem_map.mp hn
            obtain ⟨i, hi⟩ := List.mem_iff_getElem?.mp hx'
            by_contra hne
            obtain ⟨y, hy, -⟩ := h i x' hi hne
            cases hy
          rw [List.sum_eq_zero hzero]
          exact Nat.zero_le _
      | cons y ys =>
          have hrest := ih fun i x' hx' hne => h (i + 1) x' hx' hne
          have hhead : w' x ≤ w y := by
            by_cases hne : w' x = 0
            · omega
            · obtain ⟨y', hy', hle⟩ := h 0 x rfl hne
              rwa [Option.some.inj hy']
          rw [List.map_cons, List.map_cons, List.sum_cons, List.sum_cons]
          omega

/-- A total over slots that all come from another slab, each for no less. -/
theorem Slab.sum_le_of_get {kind : SlabKind} {α : Type} {s s' : Slab kind α} {g g' : α → Nat}
    (h : ∀ handle v', s'.get handle = some v' → g' v' ≠ 0 →
      ∃ v, s.get handle = some v ∧ g' v' ≤ g v) : s'.sum g' ≤ s.sum g := by
  unfold Slab.sum
  refine List.sum_map_le_of_getElem? fun i slot hslot hne => ?_
  obtain ⟨generation, state⟩ := slot
  cases state with
  | vacant next => exact absurd rfl hne
  | occupied v' =>
      obtain ⟨v, hv, hle⟩ := h ⟨i, generation⟩ v' (Slab.get_eq_some.mpr hslot) hne
      exact ⟨_, Slab.get_eq_some.mp hv, hle⟩

namespace Engine

open Ledger (book_totals)

variable {e e' : Engine} {command : Command} {now last account : Nat} {events : EventBuffer}
  {r : ReqIdx} {c : ResIdx} {k k' : Claim} {config : Config} {nonce : Nonce} {status : TxStatus}

theorem ok_of_mayReject (now : Nat) (h : e.mayReject r events = true) :
    (e.rejectRequest r now events).1 = .ok () := by
  unfold mayReject at h
  obtain ⟨y, hy, hmay⟩ := (Option.any_eq_true _ _).mp h
  simp only [Bool.and_eq_true, decide_eq_true_eq] at hmay
  unfold rejectRequest
  rw [hy]
  simp [hmay.1, hmay.2, done]

/-- What a report resolves has nothing committed to it afterwards. -/
theorem Sane.cleared_of_mayResolve (h : e.Sane) (hmay : e.mayResolve nonce status events = some r)
    (hk : (e.pollSettlement nonce status now events).2.1.market.claims c = some k) :
    k.status ≠ .committed r := by
  unfold mayResolve at hmay
  obtain ⟨hresolve, hmay⟩ := Option.filter_eq_some_iff.mp hmay
  obtain ⟨y, hy, hmay⟩ := (Option.any_eq_true _ _).mp hmay
  have hcases : (∃ err, e.pollSettlement nonce status now events = e.refuse events err) ∨ _ :=
    h.healthy.pollSettlement
  rcases hcases with ⟨err, heq⟩ | ⟨b, -, -, hnot⟩ |
    ⟨r', y', d, w', -, -, -, hresolve', -, heq, hresolves⟩
  · -- it passes its checks
    exfalso
    have hok : (e.pollSettlement nonce status now events).1 = .ok () := by
      unfold pollSettlement
      rw [hresolve]
      dsimp only
      rw [hy]
      dsimp only
      cases hstate : y.state with
      | settling n d =>
          simp only [hstate, Bool.and_eq_true, decide_eq_true_eq] at hmay
          obtain ⟨⟨rfl, hterminal⟩, hroom⟩ := hmay
          cases status with
          | settled =>
              have hroom : events.headroom 1 = true := hroom
              simp [hroom, done]
          | reverted =>
              have hroom : events.headroom (y.nLegs + 1) = true := hroom
              simp [hroom, done]
          | unknown => cases hterminal
          | pending => cases hterminal
      | _ => simp [hstate] at hmay
    rw [heq] at hok
    cases hok
  · split at hmay
    next => simp [hnot] at hmay
    next => cases hmay
  · obtain rfl := Option.some.inj (hresolve'.symm.trans hresolve)
    rw [heq] at hk
    intro hs
    obtain ⟨a, ha, ⟨n, d, hsettling⟩ | ⟨hnone, -⟩⟩ :=
      hresolves.carried.healthy.coherent.committed c k r' hk hs
    · obtain rfl := Option.some.inj (hresolves.resolved.symm.trans ha)
      cases status <;> cases hsettling
    · cases hnone

/-- After a reject that passes its checks no claim is on the request. -/
theorem Sane.unconcerned_of_mayReject (h : e.Sane) (hmay : e.mayReject r events = true)
    (hk : (e.rejectRequest r now events).2.1.market.claims c = some k) :
    e.ledger.concerns r k.owner = false := by
  obtain ⟨y, gone, w', heq, hy, hopened, hparts, -, hmem⟩ :=
    h.healthy.rejectRequest_parts rfl h.config.quotesPerLeg (ok_of_mayReject now hmay)
  rcases h.healthy.rejectRequest (r := r) h.config.quotesPerLeg with ⟨err, heq'⟩ |
    ⟨w'', heq', hcarried, a, ha, hrejected⟩
  · rw [heq] at heq'
    cases congrArg Prod.fst heq'
  rw [heq'] at heq
  simp only [done, Prod.mk.injEq, Engine.mk.injEq] at heq
  rw [heq'] at hk
  have hk : w''.1.market.claims c = some k := hk
  cases howner : k.owner with
  | request r' =>
      simp only [Ledger.concerns, decide_eq_false_iff_not]
      rintro rfl
      obtain ⟨a', ha', hbacks⟩ := hcarried.healthy.coherent.auctioned c k r' hk howner
      obtain rfl := Option.some.inj (ha.symm.trans ha')
      cases hs : k.status with
      | reserved e =>
          rw [(hbacks.reserved e hs).1] at hrejected
          cases hrejected
      | committed r'' =>
          obtain rfl := hbacks.committed r'' hs
          obtain ⟨a'', ha'', ⟨n, d, hsettling⟩ | ⟨hnone, -⟩⟩ :=
            hcarried.healthy.coherent.committed c k r'' hk hs
          · obtain rfl := Option.some.inj (ha.symm.trans ha'')
            cases hrejected.symm.trans hsettling
          · cases hnone
  | quote q =>
      obtain ⟨o, leg, ho, -, -⟩ := hcarried.healthy.coherent.offered c k q hk howner
      rw [show w''.1 = w'.1 from heq.2.1.2.1, hparts.sheds.offers] at ho
      split at ho
      · cases ho
      next hstays =>
      rw [if_neg (by simp)] at ho
      by_contra hconcerns
      rw [Bool.not_eq_false] at hconcerns
      obtain ⟨x, hx, hr⟩ := (Option.any_eq_true _ _).mp hconcerns
      exact hstays ((hmem q).mpr ⟨x.offer, Ledger.market_offers hx, of_decide_eq_true hr⟩)

/-- After an accept the claims on the request are the winners', as they were, and the
    requester's, cut down to its cost. -/
theorem Sane.left_of_commitAccept {expected : List ExpectedFill} {acc : Acceptance} (h : e.Sane)
    (hcheck : e.checkAccept r expected now events = .ok acc)
    (hk : (e.commitAccept r acc now events).1.market.claims c = some k') :
    ∃ k, e.market.claims c = some k ∧ k.account = k'.account ∧
      k'.amount ≤ e.leaves (.acceptRequest r expected) now events k := by
  obtain ⟨fills, gone, w₁, hchecked, haccepted, hparts, hoffers, -, -, hmem⟩ :=
    h.healthy.commitAccept_parts rfl h.config.quotesPerLeg hcheck
  generalize e.commitAccept r acc now events = w' at hk haccepted hoffers
  rcases haccepted.steps.claim hk with ⟨k, hk₀, hbecomes⟩ | henters
  · refine ⟨k, hk₀, hbecomes.account.symm, ?_⟩
    have hk₀ : e.ledger.market.claims c = some k := hk₀
    simp only [leaves, hcheck]
    rw [← hbecomes.owner]
    cases howner : k'.owner with
    | request r' =>
        by_cases hr : r' = r
        · subst hr
          rw [if_pos rfl]
          obtain ⟨ks, hadds, -⟩ := haccepted.adds
          obtain ⟨-, c', hc'⟩ := hadds.added (Ledger.requesterClaim r' acc.record.auction acc.total)
            (by simp)
          obtain rfl := haccepted.healthy.coherent.single c c' k' _ hk hc' howner
          rw [Option.some.inj (hk.symm.trans hc')]
          exact Nat.le_refl _
        · rw [if_neg (by simpa using hr), if_neg (by simp [Ledger.concerns, hr])]
          rcases hbecomes.status with rfl | ⟨r'', e', hscope, hreserved, hcommitted⟩
          · exact Nat.le_refl _
          · -- an accept commits no other request's claim
            obtain ⟨a, ha, hbacks⟩ :=
              haccepted.healthy.coherent.auctioned c k' r' hk howner
            obtain rfl := hbacks.committed r'' hcommitted
            obtain rfl : r = r'' := by simpa using hscope
            exact absurd rfl hr
    | quote q =>
        obtain ⟨o, leg, ho, hleg, hbacks⟩ :=
          haccepted.healthy.coherent.offered c k' q hk howner
        obtain ⟨o₀, leg₀, ho₀, hleg₀, hbacks₀⟩ :=
          h.healthy.coherent.offered c k q hk₀ (hbecomes.owner.symm.trans howner)
        have hkept : q ∉ gone.map Prod.fst ∧ (o = o₀ ∨ o = o₀.consume) := by
          rw [hoffers, hparts.sheds.offers] at ho
          split at ho
          · cases ho
          next hstays =>
          refine ⟨hstays, ?_⟩
          rw [show e.ledger.market.offers q = some o₀ from ho₀] at ho
          split at ho
          · exact .inr (Option.some.inj ho).symm
          · exact .inl (Option.some.inj ho).symm
        have hsame : k'.amount = k.amount := by
          -- an accept leaves the legs as they are
          obtain ⟨a₀, ha₀, hfound₀⟩ := Option.bind_eq_some_iff.mp hleg₀
          obtain ⟨st, hst, -⟩ := haccepted.steps.auction ha₀
          have hlegs : leg = leg₀ := by
            have hsame : w'.1.market.legOf o = some leg₀ := by
              rcases hkept.2 with rfl | rfl
              · rw [Market.legOf, hst]
                exact hfound₀
              · rw [Market.legOf, show o₀.consume.request = o₀.request from rfl, hst]
                exact hfound₀
            exact Option.some.inj (hleg.symm.trans hsame)
          rw [hbacks.amount, hbacks₀.amount, hlegs]
          rcases hkept.2 with rfl | rfl <;> rfl
        rw [if_neg (by simp), if_neg, hsame]
        simp only [Bool.and_eq_true, Bool.not_eq_true', not_and, Bool.not_eq_false]
        intro hconcerns
        obtain ⟨x, hx, hr⟩ := (Option.any_eq_true _ _).mp hconcerns
        have hwon : q ∈ fills.map Fill.quote := by
          by_contra hlost
          exact hkept.1 ((hmem q).mpr
            ⟨⟨x.offer, Ledger.market_offers hx, of_decide_eq_true hr⟩, hlost⟩)
        obtain ⟨f, hf, rfl⟩ := List.mem_map.mp hwon
        rw [hchecked.plan, List.map_map, List.contains_iff_mem]
        exact List.mem_map.mpr ⟨f, hf, rfl⟩
  · cases henters.opens

/-- A quote lets go of the one it replaces, or leaves its maker covered. -/
theorem Sane.left_of_submitQuote {maker i price size expiresAt : Nat} (h : e.Sane)
    (hk' : (e.submitQuote maker r i price size expiresAt now events).2.1.market.claims c = some k')
    (hk : e.market.claims c = some k') :
    (∀ t', (e.submitQuote maker r i price size expiresAt now events).2.1.market.totals k'.account =
        some t' → t'.claimed ≤ t'.free) ∨
      k'.amount ≤ e.leaves (.submitQuote maker r i price size expiresAt) now events k' := by
  unfold leaves
  dsimp only
  cases hcheck : e.checkQuote maker r i price size expiresAt now events with
  | error err => exact .inr (Nat.le_refl _)
  | ok checked =>
      obtain ⟨standing, contribution⟩ := checked
      cases standing with
      | none => exact .inr (Nat.le_refl _)
      | some q =>
          dsimp only
          by_cases howner : k'.owner = .quote q
          swap
          · exact .inr (by rw [if_neg howner])
          obtain ⟨y, leg, hc⟩ := Ledger.checkQuote_ok hcheck
          have hw := h.healthy.withdrawStanding rfl hc
          obtain ⟨x, held, hx, hret, -⟩ := hw.retired q rfl
          obtain ⟨x', hx', hmaker, -⟩ := h.healthy.standing (q := q) hc.request hc.opened hc.found
            hc.located.symm
          obtain ⟨o, spec, ho, -, hbacks⟩ := h.healthy.coherent.offered c k' q hk howner
          have haccount : k'.account = maker := by
            obtain rfl := Option.some.inj ((Ledger.market_offers hx').symm.trans ho)
            exact hbacks.account.trans hmaker
          by_cases hok : (e.submitQuote maker r i price size expiresAt now events).1 = .ok ()
          · left
            intro t' ht'
            obtain ⟨t, ht⟩ : ∃ t, e.market.totals k'.account = some t :=
              Option.isSome_iff_exists.mp (h.healthy.intact.balanced.known c k' hk)
            obtain ⟨t'', ht'', hframes⟩ : ∃ t'', _ ∧ Frames (.submitQuote maker r i price size expiresAt)
                (e.submitQuote maker r i price size expiresAt now events) k'.account t t'' :=
              h.frames_submitQuote ht
            obtain rfl := Option.some.inj (ht'.symm.trans ht'')
            exact hframes.admitted hok (by rw [haccount]; rfl)
          · -- refused, the quote replaced is gone all the same
            exfalso
            have hleft : (withdrawStanding (e.ledger, events) maker r i (some q)).1.market.claims c =
                some k' := by
              unfold submitQuote at hk' hok
              rw [hcheck] at hk' hok
              dsimp only at hk' hok
              by_cases hopen : Ledger.CanOpenQuote
                  (withdrawStanding (e.ledger, events) maker r i (some q)).1 maker contribution
              · have hrecord : (Quote.new maker r i price size expiresAt e.nextArrival).claim = none := rfl
                obtain ⟨q', c', l', heq, -⟩ :=
                  hw.carried.healthy.intact.openQuoteReserving_ok hrecord hopen
                rw [heq] at hok
                exact absurd rfl hok
              · obtain ⟨err, heq⟩ := Ledger.openQuoteReserving_error
                  (Quote.new maker r i price size expiresAt e.nextArrival) contribution hopen
                rw [heq] at hk'
                exact hk'
            obtain ⟨o', -, ho', -⟩ := hw.carried.healthy.coherent.offered c k' q hleft howner
            rw [hret.market] at ho'
            simp [Market.setOffer] at ho'

/-- Every claim a command finds and leaves standing, it leaves with what `leaves` says. -/
theorem Sane.left_of_claim (h : e.Sane) (hcredit : command.isCredit = false)
    (hk' : (e.perform command now events).2.1.market.claims c = some k') :
    (∀ t', (e.perform command now events).2.1.market.totals k'.account = some t' →
        t'.claimed ≤ t'.free) ∨
      ∃ k, e.market.claims c = some k ∧ k.account = k'.account ∧
        k'.amount ≤ e.leaves command now events k := by
  obtain ⟨scope, hfor, hadv⟩ := h.advances command now events
  rcases hadv.steps.claim hk' with ⟨k, hk, hbecomes⟩ | henters
  swap
  · exact .inl henters.covered
  -- but for an accept, a claim that stays is as it was
  have hsame : (∀ r, scope ≠ .filling r) → k' = k := by
    intro hfilling
    rcases hbecomes.status with heq | ⟨r, e, hscope, -⟩
    · exact heq
    · exact absurd hscope (hfilling r)
  cases command with
  | creditAccount account free => cases hcredit
  | rejectRequest r =>
      obtain rfl : scope = .rejecting r := hfor
      obtain rfl := hsame (by simp)
      refine .inr ⟨k', hk, rfl, ?_⟩
      unfold leaves
      dsimp only
      rw [if_neg]
      rw [Bool.and_eq_true]
      rintro ⟨hmay, hconcerns⟩
      rw [h.unconcerned_of_mayReject hmay hk'] at hconcerns
      cases hconcerns
  | acceptRequest r expected =>
      cases hcheck : e.checkAccept r expected now events with
      | error err =>
          rw [Engine.perform, acceptRequest, hcheck] at hk'
          have hk' : e.market.claims c = some k' := hk'
          refine .inr ⟨k', hk', rfl, ?_⟩
          simp [leaves, hcheck]
      | ok acc =>
          rw [Engine.perform, acceptRequest, hcheck] at hk'
          exact .inr (h.left_of_commitAccept hcheck hk')
  | pollSettlement nonce status =>
      obtain rfl := hsame (by rcases hfor with rfl | ⟨r, rfl, -⟩ <;> simp)
      refine .inr ⟨k', hk, rfl, ?_⟩
      unfold leaves
      dsimp only
      rw [if_neg]
      intro hany
      obtain ⟨r, hmay, hs⟩ := (Option.any_eq_true _ _).mp hany
      exact h.cleared_of_mayResolve hmay hk' (of_decide_eq_true hs)
  | submitQuote maker r i price size expiresAt =>
      obtain rfl := hsame (by rcases hfor with rfl | ⟨q, o, rfl, -⟩ <;> simp)
      rcases h.left_of_submitQuote hk' hk with hcovered | hle
      · exact .inl hcovered
      · exact .inr ⟨k', hk, rfl, hle⟩
  | _ =>
      obtain rfl : scope = .calm := hfor
      obtain rfl := hsame (by simp)
      exact .inr ⟨k', hk, rfl, Nat.le_refl _⟩

/-- An account whose claims a command leaves within its balance ends up covered. -/
theorem Sane.covered_of_left (h : e.Sane) (hcredit : command.isCredit = false)
    (hleft : ∀ m, e.ledger.account account = some m → e.left command now events account ≤ m.free)
    {t' : Totals} (ht' : (e.perform command now events).2.1.market.totals account = some t') :
    t'.claimed ≤ t'.free := by
  obtain ⟨scope, hfor, hadv⟩ := h.advances command now events
  obtain ⟨t, ht⟩ : ∃ t, e.market.totals account = some t :=
    Option.isSome_iff_exists.mp (hadv.steps.totals_isSome.symm.trans (by rw [ht']; rfl))
  obtain ⟨t'', ht'', hframes⟩ := h.frames_perform command now events ht
  obtain rfl := Option.some.inj (ht'.symm.trans ht'')
  have hfree : t'.free = t.free := by
    rcases hframes.free with heq | ⟨-, rfl⟩
    · exact heq
    · cases hcredit
  obtain ⟨m, hm, rfl⟩ := Option.map_eq_some_iff.mp ht
  by_contra hnot
  have hsum : t'.claimed ≤ e.left command now events account := by
    rw [hadv.sane.healthy.intact.claimed ht']
    refine Slab.sum_le_of_get fun c r' hr' hne => ?_
    have haccount : r'.toClaim.account = account := by
      by_contra hother
      exact hne (by simp [Claim.heldBy, hother])
    have hclaim : (e.perform command now events).2.1.market.claims c = some r'.toClaim :=
      Ledger.market_claims hr'
    rcases h.left_of_claim hcredit hclaim with hcovered | ⟨k, hk, hsame, hle⟩
    · rw [haccount] at hcovered
      exact absurd (hcovered t' ht') hnot
    · obtain ⟨r, hr, rfl⟩ := Ledger.reservation_of_market hk
      refine ⟨r, hr, ?_⟩
      rw [Claim.heldBy, if_pos haccount, if_pos (show r.account = account from hsame.trans haccount)]
      exact hle
  have hle := hleft m hm
  rw [hfree] at hnot
  exact hnot (hsum.trans hle)

-- ============================================================================
-- The accounts a command names
-- ============================================================================

theorem resolveNonce_congr {l l' : Ledger} (h : ∀ r, (l'.request r).isSome = (l.request r).isSome) :
    resolveNonce l' nonce = resolveNonce l nonce := by
  refine Option.ext fun r => ?_
  rw [Ledger.resolveNonce_eq_some, Ledger.resolveNonce_eq_some, h]

/-- Requests keep their requesters, and their places, while none opens. -/
theorem requesters_of_steps {scope : Scope} (hsteps : Market.Steps now scope e.market e'.market)
    (hopens : ¬ scope.Opens) (r : ReqIdx) :
    (e'.ledger.request r).map Request.requester = (e.ledger.request r).map Request.requester := by
  cases hy : e.ledger.request r with
  | none =>
      cases hy' : e'.ledger.request r with
      | none => rfl
      | some y' =>
          have hnone : e.market.auctions r = none := by
            cases ha : e.market.auctions r with
            | none => rfl
            | some a =>
                obtain ⟨y, hy₀, -⟩ := Ledger.request_of_market ha
                cases hy.symm.trans hy₀
          exact absurd (hsteps.auction_new hnone (Ledger.market_auctions hy')).2 hopens
  | some y =>
      obtain ⟨st, hst, -⟩ := hsteps.auction (Ledger.market_auctions hy)
      obtain ⟨y', hy', hauction⟩ := Ledger.request_of_market hst
      rw [hy', Option.map_some, Option.map_some, Option.some.injEq]
      exact congrArg Auction.requester hauction

theorem isSome_of_requesters
    (h : ∀ r, (e'.ledger.request r).map Request.requester = (e.ledger.request r).map Request.requester)
    (r : ReqIdx) : (e'.ledger.request r).isSome = (e.ledger.request r).isSome := by
  rw [← Option.isSome_map (f := Request.requester), h, Option.isSome_map]

theorem touchedAccounts_congr (command : Command)
    (hr : ∀ r, (e'.ledger.request r).map Request.requester = (e.ledger.request r).map Request.requester)
    (hq : ∀ q, (e'.ledger.quote q).map Quote.maker = (e.ledger.quote q).map Quote.maker) :
    e'.touchedAccounts command = e.touchedAccounts command := by
  have hnonce : ∀ nonce, resolveNonce e'.ledger nonce = resolveNonce e.ledger nonce := fun nonce =>
    resolveNonce_congr (isSome_of_requesters hr)
  cases command <;> simp only [touchedAccounts, hr, hq, hnonce, Option.map_bind, Function.comp_def]

/-- A command names the same accounts once it has been carried out. -/
theorem Sane.touchedAccounts_perform (command : Command) (now : Nat) (events : EventBuffer)
    (h : e.Sane) :
    (e.perform command now events).2.1.touchedAccounts command = e.touchedAccounts command := by
  obtain ⟨scope, hfor, hadv⟩ := h.advances command now events
  cases command with
  | rejectRequest r =>
      have hkept := requesters_of_steps hadv.steps (by rw [show scope = _ from hfor]; exact id) r
      rw [touchedAccounts, touchedAccounts, hkept]
  | acceptRequest r expected =>
      have hkept := requesters_of_steps hadv.steps (by rw [show scope = _ from hfor]; exact id) r
      rw [touchedAccounts, touchedAccounts, hkept]
  | pollSettlement nonce status =>
      have hcases : (∃ err, e.pollSettlement nonce status now events = e.refuse events err) ∨ _ :=
        h.healthy.pollSettlement
      rw [Engine.perform]
      rcases hcases with ⟨err, heq⟩ | ⟨b, heq, -, -⟩ | ⟨r, y, d, w', -, -, -, -, -, heq, hresolves⟩
      · rw [heq]
        rfl
      · rw [heq]
      · rw [heq]
        have hkept : ∀ r', ((e.done w').2.1.ledger.request r').map Request.requester =
            (e.ledger.request r').map Request.requester :=
          requesters_of_steps hresolves.carried.steps id
        have hnonce : resolveNonce (e.done w').2.1.ledger nonce = resolveNonce e.ledger nonce :=
          resolveNonce_congr (isSome_of_requesters hkept)
        simp only [touchedAccounts, hnonce, Option.map_bind, Function.comp_def, hkept]
  | submitQuote maker r i price size expiresAt =>
      cases hy : e.ledger.request r with
      | none =>
          have heq : e.perform (.submitQuote maker r i price size expiresAt) now events =
              e.refuse events .unknownRequest := by
            simp [Engine.perform, submitQuote, checkQuote, hy]
          rw [heq]
          rfl
      | some y =>
          obtain ⟨st, hst, -⟩ := hadv.steps.auction (Ledger.market_auctions hy)
          obtain ⟨y', hy', hauction⟩ := Ledger.request_of_market hst
          have hsame : y'.requester = y.requester := congrArg Auction.requester hauction
          simp only [touchedAccounts, hy, hy', Option.map_some, hsame]
  | cancelQuote q =>
      have hsame : (e.perform (.cancelQuote q) now events).2.1 = e := by
        rw [Engine.perform]
        split <;> rfl
      rw [hsame]
  | _ => rfl

/-- So it does at any instant. -/
theorem Sane.touchedAccounts_step (h : e.Sane) (input : Input) :
    (e.step input).touchedAccounts input.command = e.touchedAccounts input.command := by
  have hn := h.normalised input.command input.now
  refine (hn.sane.touchedAccounts_perform input.command input.now _).trans ?_
  refine touchedAccounts_congr input.command ?_ fun q => ?_
  · exact requesters_of_steps (hn.steps (.resolving ⟨0, 0⟩)) id
  · have hmaker := congrArg (Option.map Offer.maker) (congrFun hn.offers q)
    change Option.map Offer.maker (Option.map Quote.offer _) =
      Option.map Offer.maker (Option.map Quote.offer _) at hmaker
    rw [Option.map_map, Option.map_map] at hmaker
    exact hmaker

-- ============================================================================
-- Runs
-- ============================================================================

theorem Sane.coverageAsserted_of_bears (h : e.Sane) (input : Input) (hbears : e.Bears input) :
    (e.step input).coverageAsserted input.command = true := by
  have hn := h.normalised input.command input.now
  unfold coverageAsserted
  cases hcredit : input.command.isCredit with
  | true => rfl
  | false =>
      rw [Bool.false_or, List.all_eq_true]
      intro account haccount
      rw [h.touchedAccounts_step] at haccount
      obtain ⟨scope, -, hadv⟩ :=
        hn.sane.advances input.command input.now (.withCapacity input.capacity)
      refine decide_eq_true (Ledger.checkClaimCoverageFor_of_covered hadv.sane.healthy.intact ?_)
      exact fun t' ht' => hn.sane.covered_of_left hcredit (hbears hcredit account haccount) ht'

/-- In every run whose commands all find the accounts they name able to bear what they
    leave of their claims, the engine thread's assertion holds after each of them. -/
theorem asserted_of_bears (h : ReachableAt config last e) (inputs : List Input)
    (hpaced : Paced Bears last e inputs) : e.Asserted inputs := by
  induction inputs generalizing e last with
  | nil => trivial
  | cons input inputs ih =>
      obtain ⟨hnow, hbears, hrest⟩ := hpaced
      exact ⟨h.sane.coverageAsserted_of_bears input hbears, ih (h.step input hnow) hrest⟩

/-- A withdrawal takes the standing quote's maker below its claim; the reject after it only
    names the requester. -/
theorem asserted_of_bears_standing :
    standing.Asserted [⟨.creditAccount 1 0, 3, 8⟩, ⟨.rejectRequest ⟨0, 0⟩, 4, 8⟩] := by
  refine asserted_of_bears reachableAt_standing _
    ⟨by decide, fun hcredit => (nomatch hcredit), by decide, fun _ account haccount m hm => ?_,
      trivial⟩
  have htouched : (standing.step ⟨.creditAccount 1 0, 3, 8⟩).touchedAccounts (.rejectRequest ⟨0, 0⟩) =
      [0] := by decide +kernel
  rw [htouched, List.mem_singleton] at haccount
  subst haccount
  have hleft : (((standing.step ⟨.creditAccount 1 0, 3, 8⟩).normalisedFor
      ⟨.rejectRequest ⟨0, 0⟩, 4, 8⟩).ledger.account 0).all (fun m => decide
        (((standing.step ⟨.creditAccount 1 0, 3, 8⟩).normalisedFor ⟨.rejectRequest ⟨0, 0⟩, 4, 8⟩).left
          (.rejectRequest ⟨0, 0⟩) 4 (.withCapacity 8) 0 ≤ m.free)) = true := by decide +kernel
  rw [hm, Option.all_some] at hleft
  exact of_decide_eq_true hleft

/-- The command after a mirror update finds the account below its claims, and the assertion
    fires: cancelling the quote, which is refused, is enough. -/
theorem assertion_fires :
    ¬ ∀ (config : Config) (last : Nat) (e : Engine), ReachableAt config last e →
      ∀ inputs, Paced (fun _ _ => True) last e inputs → e.Asserted inputs := by
  intro h
  have hasserted := h Config.small 2 standing reachableAt_standing
    [⟨.creditAccount 1 0, 3, 8⟩, ⟨.cancelQuote ⟨0, 0⟩, 3, 8⟩]
    ⟨by decide, trivial, by decide, trivial, trivial⟩
  exact absurd hasserted.2.1 (by decide +kernel)

end Engine

end RfqSettlement
