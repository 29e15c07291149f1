/-
  RfqSettlement.Core.Sweeping

  Release-on-access equals an eager sweep.

  Two engines match when they differ only in claims and hold the same claims on every
  committed list.  What else a claim can be is reserved, and while it has not expired the
  records say that it is there and how much it holds; so on an account without expired
  claims the two agree to the last unit.  A command normalises what it checks.
-/

import RfqSettlement.Core.KindredHandlers
import RfqSettlement.Core.CommittedClaims
import RfqSettlement.Core.Coverage

namespace RfqSettlement

-- ============================================================================
-- Totals by content
-- ============================================================================

namespace Slab

variable {kind : SlabKind} {α : Type} {s : Slab kind α}

theorem sum_eq_iter (g : α → Nat) : s.sum g = (s.iter.map fun x => g x.2).sum := by
  have hlist : ∀ (entry : Slot α × Nat → Option (Handle kind × α)),
      (∀ generation v i, entry (⟨generation, .occupied v⟩, i) = some (⟨i, generation⟩, v)) →
      (∀ generation next i, entry (⟨generation, .vacant next⟩, i) = none) →
      ∀ (slots : List (Slot α)) (k : Nat),
        (slots.map (slotTotal g)).sum = (((slots.zipIdx k).filterMap entry).map fun x => g x.2).sum := by
    intro entry hoccupied hvacant slots
    induction slots with
    | nil => exact fun k => rfl
    | cons slot slots ih =>
        intro k
        obtain ⟨generation, state⟩ := slot
        rw [List.map_cons, List.sum_cons, List.zipIdx_cons, ih (k + 1)]
        cases state with
        | vacant next =>
            rw [List.filterMap_cons_none (hvacant _ _ _)]
            exact Nat.zero_add _
        | occupied v =>
            rw [List.filterMap_cons_some (hoccupied _ _ _), List.map_cons, List.sum_cons]
            rfl
  exact hlist _ (fun _ _ _ => rfl) (fun _ _ _ => rfl) s.slots 0

end Slab

namespace Book

/-- A sweep makes no claim. -/
theorem Expired.claims {b b' : Book} {account now : Nat} (h : Expired account now b b') {c : ResIdx}
    {k : Claim} (hk : b'.claims c = some k) : b.claims c = some k := by
  induction h with
  | refl => exact hk
  | @step b b' claim k₀ e _ _ _ _ rest ih =>
      have hfree : (b.free claim k₀).claims = Function.update b.claims claim none :=
        congrArg Market.claims market_free
      have hk := ih hk
      rw [hfree] at hk
      by_cases hc : c = claim
      · subst hc
        rw [Function.update_self] at hk
        cases hk
      · rwa [Function.update_of_ne hc] at hk

end Book

namespace Ledger

variable {l l' : Ledger} {a max max' now : Nat}

/-- The claims of a ledger. -/
def contents (l : Ledger) : List Claim := l.reservations.iter.map fun x => x.2.toClaim

theorem mem_contents {k : Claim} : k ∈ l.contents ↔ ∃ c, l.market.claims c = some k := by
  rw [contents, List.mem_map]
  constructor
  · rintro ⟨x, hx, rfl⟩
    exact ⟨x.1, market_claims (Slab.mem_iter.mp hx)⟩
  · rintro ⟨c, hk⟩
    obtain ⟨v, hv, rfl⟩ := reservation_of_market hk
    exact ⟨(c, v), Slab.mem_iter.mpr hv, rfl⟩

/-- An owner has one claim, so no claim occurs twice. -/
theorem Healthy.nodup_contents {filled : Option ReqIdx} (h : l.Healthy max filled) : l.contents.Nodup := by
  refine List.Nodup.map_on (fun x hx y hy heq => ?_) (Slab.nodup_iter.of_map _)
  have hx := Slab.mem_iter.mp hx
  have hy := Slab.mem_iter.mp hy
  have hsame : x.1 = y.1 :=
    h.coherent.single x.1 y.1 _ _ (market_claims hx) (market_claims hy) (congrArg Claim.owner heq)
  refine Prod.ext hsame ?_
  rw [← hsame, hx] at hy
  exact Option.some.inj hy

/-- A total is the same where the claims that count towards it are. -/
theorem Healthy.sum_eq {filled filled' : Option ReqIdx} {f : Claim → Nat} (h : l.Healthy max filled)
    (h' : l'.Healthy max' filled')
    (hsame : ∀ k, f k ≠ 0 → ((∃ c, l.market.claims c = some k) ↔ ∃ c, l'.market.claims c = some k)) :
    l.market.sum f = l'.market.sum f := by
  have hsum : ∀ l : Ledger, l.market.sum f = ((l.contents.filter fun k => decide (f k ≠ 0)).map f).sum := by
    intro l
    have hplain : l.market.sum f = (l.contents.map f).sum := by
      rw [contents, List.map_map]
      exact Slab.sum_eq_iter _
    rw [hplain]
    generalize l.contents = ks
    induction ks with
    | nil => rfl
    | cons k ks ih =>
        rw [List.map_cons, List.sum_cons, ih, List.filter_cons]
        by_cases hk : f k = 0 <;> simp [hk]
  rw [hsum, hsum]
  refine (List.Perm.map f ((List.perm_ext_iff_of_nodup (h.nodup_contents.filter _)
    (h'.nodup_contents.filter _)).mpr fun k => ?_)).sum_eq
  rw [List.mem_filter, List.mem_filter, mem_contents, mem_contents]
  constructor
  · rintro ⟨hk, hcounts⟩
    exact ⟨(hsame k (by simpa using hcounts)).mp hk, hcounts⟩
  · rintro ⟨hk, hcounts⟩
    exact ⟨(hsame k (by simpa using hcounts)).mpr hk, hcounts⟩

-- ============================================================================
-- An account without expired claims
-- ============================================================================

/-- No reserved claim of account `a` has expired. -/
def Fresh (l : Ledger) (a now : Nat) : Prop :=
  ∀ c k e, l.market.claims c = some k → k.account = a → k.status = .reserved e → now < e

theorem Kindred.auctions (h : Kindred l l') : l.market.auctions = l'.market.auctions := by
  funext r
  show ((l.request r).map Request.unlinked).map Request.auction =
    ((l'.request r).map Request.unlinked).map Request.auction
  rw [Option.map_map, Option.map_map]
  exact Entrywise.map_eq (h.request r) fun y _ hy => (congrArg Request.auction hy : y.bare.auction = _)

theorem Kindred.offers (h : Kindred l l') : l.market.offers = l'.market.offers := by
  funext q
  exact Entrywise.map_eq (h.quote q) fun x _ hx => (congrArg Quote.offer hx : (x.setClaim none).offer = _)

/-- A claim that has not expired is in both, with one content. -/
theorem Kindred.reserved (h : Kindred l l') (hl : l.Healthy max none) (hl' : l'.Healthy max' none)
    (hb' : l'.market.Backed now) {c : ResIdx} {k : Claim} {e : Nat} (hk : l.market.claims c = some k)
    (hs : k.status = .reserved e) (hlive : now < e) : ∃ c, l'.market.claims c = some k := by
  cases howner : k.owner with
  | quote q =>
      obtain ⟨o, leg, ho, hleg, hbacks⟩ := hl.coherent.offered c k q hk howner
      obtain ⟨hactive, rfl⟩ := hbacks.reserved e hs
      have ho₂ : l'.market.offers q = some o := h.offers ▸ ho
      obtain ⟨c', k', hk', howner'⟩ := hb'.offers q o ho₂ hactive hlive
      obtain ⟨o', leg', ho', hleg', hbacks'⟩ := hl'.coherent.offered c' k' q hk' howner'
      obtain rfl := Option.some.inj (ho₂.symm.trans ho')
      obtain rfl := Option.some.inj (hleg.symm.trans ((Market.legOf_congr h.auctions).trans hleg'))
      have hstatus : k'.status = k.status := by
        rw [hs]
        cases hs' : k'.status with
        | reserved e' => rw [(hbacks'.reserved e' hs').2]
        | committed r' => cases hactive.symm.trans (hbacks'.committed r' hs').1
      obtain ⟨account, amount, owner, status⟩ := k
      obtain ⟨account', amount', owner', status'⟩ := k'
      obtain rfl : status' = status := hstatus
      obtain rfl : account' = account := hbacks'.account.trans hbacks.account.symm
      obtain rfl : amount' = amount := hbacks'.amount.trans hbacks.amount.symm
      obtain rfl : owner' = owner := howner'.trans howner.symm
      exact ⟨c', hk'⟩
  | request r =>
      obtain ⟨y, hy, hbacks⟩ := hl.coherent.auctioned c k r hk howner
      obtain ⟨hopened, rfl, hamount⟩ := hbacks.reserved e hs
      have hy₂ : l'.market.auctions r = some y := h.auctions ▸ hy
      obtain ⟨c', k', hk', howner'⟩ := hb'.auctions r y hy₂ hopened hlive
      obtain ⟨y', hy', hbacks'⟩ := hl'.coherent.auctioned c' k' r hk' howner'
      obtain rfl := Option.some.inj (hy₂.symm.trans hy')
      obtain ⟨e', hs'⟩ := hl'.reserved_of_opened hy₂ hopened hk' howner'
      obtain ⟨-, rfl, hamount'⟩ := hbacks'.reserved e' hs'
      obtain ⟨account, amount, owner, status⟩ := k
      obtain ⟨account', amount', owner', status'⟩ := k'
      obtain rfl : status' = status := hs'.trans hs.symm
      obtain rfl : account' = account := hbacks'.account.trans hbacks.account.symm
      obtain rfl : amount' = amount := hamount'.trans hamount.symm
      obtain rfl : owner' = owner := howner'.trans howner.symm
      exact ⟨c', hk'⟩

/-- What a ledger has on the account `a`, once what has expired is reclaimed, is said by the
    records and the committed lists. -/
theorem Kindred.totals (h : Kindred l l') (hl : l.Healthy max none) (hl' : l'.Healthy max' none)
    (hb : l.market.Backed now) (hb' : l'.market.Backed now) (hlists : l.committedClaims = l'.committedClaims)
    (hfresh : l.Fresh a now) (hfresh' : l'.Fresh a now) : l.market.totals a = l'.market.totals a := by
  have hreserved : l.market.sum (Claim.reservedBy a) = l'.market.sum (Claim.reservedBy a) := by
    have hone : ∀ {l l' : Ledger} {max max' : Nat}, Kindred l l' → l.Healthy max none → l'.Healthy max' none →
        l'.market.Backed now → l.Fresh a now → ∀ k, Claim.reservedBy a k ≠ 0 →
        (∃ c, l.market.claims c = some k) → ∃ c, l'.market.claims c = some k := by
      rintro l l' max max' h hl hl' hb' hfresh k hcounts ⟨c, hk⟩
      cases hs : k.status with
      | reserved e =>
          have ha : k.account = a := by
            by_contra hne
            exact hcounts (by simp [Claim.reservedBy, hs, hne])
          exact h.reserved hl hl' hb' hk hs (hfresh c k e hk ha hs)
      | committed r => simp [Claim.reservedBy, hs] at hcounts
    exact hl.sum_eq hl' fun k hk => ⟨hone h hl hl' hb' hfresh k hk, hone h.symm hl' hl hb hfresh' k hk⟩
  have hcommitted : l.market.sum (Claim.committedBy a) = l'.market.sum (Claim.committedBy a) := by
    refine hl.sum_eq hl' fun k hcounts => ?_
    cases hs : k.status with
    | reserved e => simp [Claim.committedBy, hs] at hcounts
    | committed r =>
        have hmem := hl.intact.mem_committedClaims (r := r) (k := k)
        have hmem' := hl'.intact.mem_committedClaims (r := r) (k := k)
        rw [hlists] at hmem
        simpa [hs] using hmem.symm.trans hmem'
  have hfree := h.free a
  show (l.account a).map MirroredBalance.totals = (l'.account a).map MirroredBalance.totals
  cases hm : l.account a with
  | none =>
      rw [hm] at hfree
      cases hm' : l'.account a with
      | none => rfl
      | some m' =>
          rw [hm'] at hfree
          cases hfree
  | some m =>
      rw [hm] at hfree
      cases hm' : l'.account a with
      | none =>
          rw [hm'] at hfree
          cases hfree
      | some m' =>
          rw [hm', Option.map_some, Option.map_some, Option.some.injEq] at hfree
          have hb := hl.intact.balanced
          have hb' := hl'.intact.balanced
          have hr : m.totals.reserved = m'.totals.reserved :=
            (hb.reserved a _ (book_totals hm)).trans (hreserved.trans (hb'.reserved a _ (book_totals hm')).symm)
          have hc : m.totals.committed = m'.totals.committed :=
            (hb.committed a _ (book_totals hm)).trans (hcommitted.trans (hb'.committed a _ (book_totals hm')).symm)
          have htotals : m.totals = m'.totals := by
            simp only [MirroredBalance.totals] at hr hc ⊢
            rw [hfree, hr, hc]
          rw [Option.map_some, Option.map_some, htotals]

/-- So the coverage check answers alike. -/
theorem checkReservable_eq (h : l.market.totals a = l'.market.totals a) (amount : Nat) :
    l.checkReservable a amount = l'.checkReservable a amount := by
  have h : (l.account a).map MirroredBalance.totals = (l'.account a).map MirroredBalance.totals := h
  unfold Ledger.checkReservable
  cases hm : l.account a with
  | none =>
      rw [hm] at h
      cases hm' : l'.account a with
      | none => rfl
      | some m' =>
          rw [hm'] at h
          cases h
  | some m =>
      rw [hm] at h
      cases hm' : l'.account a with
      | none =>
          rw [hm'] at h
          cases h
      | some m' =>
          rw [hm', Option.map_some, Option.map_some, Option.some.injEq] at h
          obtain ⟨hfree, hreserved, hcommitted⟩ : m.free = m'.free ∧ m.reserved = m'.reserved ∧
              m.committed = m'.committed := by simpa [MirroredBalance.totals] using h
          dsimp only
          rw [hfree, hreserved, hcommitted]

-- ============================================================================
-- Sweeps
-- ============================================================================

theorem Intact.claims_releaseExpired (h : l.Intact) (account now : Nat) {c : ResIdx} {k : Claim}
    (hk : (l.releaseExpired account now).2.market.claims c = some k) : l.market.claims c = some k := by
  cases hm : l.account account with
  | none =>
      rw [releaseExpired_error hm] at hk
      exact hk
  | some m =>
      obtain ⟨-, hswept⟩ := h.releaseExpired account now (by simp [hm])
      exact hswept.book.claims hk

/-- A sweep leaves its account fresh. -/
theorem Intact.fresh_releaseExpired (h : l.Intact) (account now : Nat) :
    (l.releaseExpired account now).2.Fresh account now := by
  intro c k e hk ha hs
  cases hm : l.account account with
  | none =>
      have hk := h.claims_releaseExpired account now hk
      have hknown : (l.book.totals k.account).isSome := h.balanced.known c k hk
      rw [ha] at hknown
      simp [book, hm] at hknown
  | some m =>
      obtain ⟨-, hswept⟩ := h.releaseExpired account now (by simp [hm])
      exact hswept.live c k e hk ha hs

/-- Mirroring the balance that is there changes nothing. -/
theorem applyMirrorUpdate_self {free : Nat} (h : ∀ m, l.account a = some m → m.free = free) :
    (l.applyMirrorUpdate a free).2 = l := by
  unfold Ledger.applyMirrorUpdate
  cases hm : l.account a with
  | none => rfl
  | some m =>
      dsimp only
      rw [modifyAccount_congr (g := id) fun m hm => by rw [← h m hm]; rfl, Ledger.modifyAccount, List.modify_id]

theorem Fresh.of_claims (h : l.Fresh a now)
    (hclaims : ∀ c k, l'.market.claims c = some k → l.market.claims c = some k) : l'.Fresh a now :=
  fun c k e hk => h c k e (hclaims c k hk)

end Ledger

namespace Engine

open Ledger (Fresh QuoteChecked Checked requesterClaim)
open Ledger.CommitPhase (dischargeCommitted)

variable {config : Config} {e e' : Engine} {account last now : Nat} {accounts : List Nat} {command : Command}
  {b : EventBuffer}

theorem Sane.fresh_normaliseAll (h : e.Sane) (hmem : account ∈ accounts) :
    (e.normaliseAll accounts now).ledger.Fresh account now := by
  have hkeeps : ∀ (accounts : List Nat) {e : Engine}, e.Sane → e.ledger.Fresh account now →
      (e.normaliseAll accounts now).ledger.Fresh account now := by
    intro accounts
    induction accounts with
    | nil => exact fun _ hfresh => hfresh
    | cons a accounts ih =>
        intro e h hfresh
        exact ih (h.normalise now a).sane
          (hfresh.of_claims fun c k hk => h.healthy.intact.claims_releaseExpired a now hk)
  unfold Engine.normaliseAll
  induction accounts generalizing e with
  | nil => cases hmem
  | cons a accounts ih =>
      have hn := (h.normalise now a).sane
      rcases List.mem_cons.mp hmem with rfl | hmem
      · exact hkeeps accounts hn (h.healthy.intact.fresh_releaseExpired account now)
      · exact ih hn hmem

/-- A sweep is a command: crediting the account with the balance it has. -/
theorem exists_normalise_eq_step (e : Engine) (account now : Nat) :
    ∃ input, input.now = now ∧ e.step input = e.normalise account now := by
  let free := (((e.normalise account now).ledger.account account).map MirroredBalance.free).getD 0
  refine ⟨⟨.creditAccount account free, now, 0⟩, rfl, ?_⟩
  have hsame : (e.normalise account now).ledger.applyMirrorUpdate account free =
      (((e.normalise account now).ledger.applyMirrorUpdate account free).1, (e.normalise account now).ledger) :=
    Prod.ext rfl (Ledger.applyMirrorUpdate_self fun m hm => by simp [free, hm])
  show ((e.normalise account now).perform (.creditAccount account free) now _).2.1 = _
  simp only [Engine.perform]
  rw [hsame]
  cases ((e.normalise account now).ledger.applyMirrorUpdate account free).1 <;> rfl

theorem ReachableAt.normalise (h : ReachableAt config last e) (account : Nat) (hnow : last ≤ now) :
    ReachableAt config now (e.normalise account now) := by
  obtain ⟨input, rfl, heq⟩ := e.exists_normalise_eq_step account now
  exact heq ▸ h.step input hnow

theorem Reachable.normaliseAll (h : Reachable config e) (accounts : List Nat) (now : Nat) :
    Reachable config (e.normaliseAll accounts now) := by
  unfold Engine.normaliseAll
  induction accounts generalizing e with
  | nil => exact h
  | cons account accounts ih =>
      obtain ⟨input, rfl, heq⟩ := e.exists_normalise_eq_step account now
      have hn : Reachable config (e.normalise account input.now) := heq ▸ h.step input
      exact ih hn

-- ============================================================================
-- Matching engines
-- ============================================================================

/-- Engines that may differ in what has been reclaimed, and in nothing else. -/
structure Matches (e e' : Engine) : Prop where
  kindred : Kindred e e'
  lists : e.ledger.committedClaims = e'.ledger.committedClaims

theorem Matches.refl (e : Engine) : Matches e e := ⟨.refl e, rfl⟩

theorem Matches.normalise_right (h : Matches e e') (hs' : e'.Sane) (account now : Nat) :
    Matches e (e'.normalise account now) where
  kindred := ⟨h.kindred.config, h.kindred.ledger.releaseExpired account now, h.kindred.nextArrival⟩
  lists := h.lists.trans ((hs'.healthy.intact.spared_releaseExpired account now).committedClaims
    hs'.healthy.intact (hs'.normalise now account).sane.healthy.intact).symm

theorem Kindred.symm (h : Kindred e e') : Kindred e' e :=
  ⟨h.config.symm, h.ledger.symm, h.nextArrival.symm⟩

theorem Matches.symm (h : Matches e e') : Matches e' e := ⟨h.kindred.symm, h.lists.symm⟩

theorem Matches.normaliseAll_right (h : Matches e e') (hs' : e'.Sane) (accounts : List Nat) (now : Nat) :
    Matches e (e'.normaliseAll accounts now) := by
  unfold Engine.normaliseAll
  induction accounts generalizing e' with
  | nil => exact h
  | cons account accounts ih => exact ih (h.normalise_right hs' account now) (hs'.normalise now account).sane

theorem Kindred.touchedAccounts (h : Kindred e e') (command : Command) :
    e.touchedAccounts command = e'.touchedAccounts command := by
  have hnonce : ∀ nonce, ((resolveNonce e.ledger nonce).bind e.ledger.request).map Request.requester =
      ((resolveNonce e'.ledger nonce).bind e'.ledger.request).map Request.requester := by
    intro nonce
    rw [h.ledger.resolveNonce]
    cases resolveNonce e'.ledger nonce with
    | none => rfl
    | some r => exact h.ledger.requester r
  cases command <;> simp only [Engine.touchedAccounts, h.ledger.requester, h.ledger.maker, hnonce]

/-- The coverage checks of an account without expired claims agree. -/
theorem Matches.checkReservable (h : Matches e e') (hs : e.Sane) (hs' : e'.Sane) (hb : e.market.Backed now)
    (hb' : e'.market.Backed now) (hfresh : e.ledger.Fresh account now) (hfresh' : e'.ledger.Fresh account now)
    (amount : Nat) : e.ledger.checkReservable account amount = e'.ledger.checkReservable account amount :=
  Ledger.checkReservable_eq
    (h.kindred.ledger.totals hs.healthy hs'.healthy hb hb' h.lists hfresh hfresh') amount

/-- A withdrawn quote takes a claim with it and leaves the others. -/
theorem Sane.claims_withdrawStanding (h : e.Sane) {maker i price size expiresAt contribution : Nat} {r : ReqIdx}
    {standing : Option QuoteIdx} {y : Request} {leg : Leg}
    (hc : QuoteChecked e maker r i price size expiresAt now b standing contribution y leg) {c : ResIdx} {k : Claim}
    (hk : (withdrawStanding (e.ledger, b) maker r i standing).1.market.claims c = some k) :
    e.ledger.market.claims c = some k := by
  have hw := h.healthy.withdrawStanding rfl hc
  cases hstanding : standing with
  | none =>
      rw [hstanding] at hk
      exact hk
  | some q =>
      obtain ⟨x, held, -, hret, -⟩ := hw.retired q hstanding
      rw [hret.market] at hk
      cases held with
      | none => exact hk
      | some held =>
          by_cases hheld : c = held.1
          · subst hheld
            rw [show ((e.ledger.market.letGo (some held)).setOffer q none).claims =
              Function.update e.ledger.market.claims held.1 none from rfl, Function.update_self] at hk
            cases hk
          · rwa [show ((e.ledger.market.letGo (some held)).setOffer q none).claims =
              Function.update e.ledger.market.claims held.1 none from rfl, Function.update_of_ne hheld] at hk

/-- What a submission checks, once it has withdrawn the quote it replaces. -/
theorem Matches.withdrawStanding (h : Matches e e') (hs : e.Sane) (hs' : e'.Sane) (hb : e.market.Backed now)
    (hb' : e'.market.Backed now) {maker i price size expiresAt contribution : Nat} {r : ReqIdx}
    {standing : Option QuoteIdx} (hfresh : e.ledger.Fresh maker now) (hfresh' : e'.ledger.Fresh maker now)
    (hchecked : e.checkQuote maker r i price size expiresAt now b = .ok (standing, contribution)) (amount : Nat) :
    (Engine.withdrawStanding (e.ledger, b) maker r i standing).1.checkReservable maker amount =
      (Engine.withdrawStanding (e'.ledger, b) maker r i standing).1.checkReservable maker amount := by
  obtain ⟨y, leg, hc⟩ := Ledger.checkQuote_ok hchecked
  rw [h.kindred.checkQuote] at hchecked
  obtain ⟨y', leg', hc'⟩ := Ledger.checkQuote_ok hchecked
  have hw := hs.healthy.withdrawStanding rfl hc
  have hw' := hs'.healthy.withdrawStanding rfl hc'
  have hscope : (Ledger.replacementScope standing).filled = none := by cases standing <;> rfl
  have hlists := (hs.spared_withdrawStanding hc).committedClaims hs.healthy.intact hw.carried.healthy.intact
  have hlists' := (hs'.spared_withdrawStanding hc').committedClaims hs'.healthy.intact hw'.carried.healthy.intact
  have hkindred := (h.kindred.start (b := b)).withdrawStanding maker r i standing
  exact Ledger.checkReservable_eq (hkindred.ledger.totals hw.carried.healthy hw'.carried.healthy
    (hb.steps_of hs.healthy.coherent hw.carried.steps hscope)
    (hb'.steps_of hs'.healthy.coherent hw'.carried.steps hscope)
    (hlists.trans (h.lists.trans hlists'.symm))
    (hfresh.of_claims fun c k hk => hs.claims_withdrawStanding hc hk)
    (hfresh'.of_claims fun c k hk => hs'.claims_withdrawStanding hc' hk)) amount

/-- The claims of a settling request are discharged alike. -/
theorem Matches.dischargeCommitted (h : Matches e e') (hs : e.Sane) (hs' : e'.Sane) {r : ReqIdx} {y : Request}
    (hy : e.ledger.request r = some y) (hsettling : y.auction.IsSettling) :
    (dischargeCommitted e.ledger r).1 = (dischargeCommitted e'.ledger r).1 := by
  have ha := Ledger.market_auctions hy
  have ha' : e'.ledger.market.auctions r = some y.auction := h.kindred.ledger.auctions ▸ ha
  rw [(hs.healthy.committedClaims_discharge ha hsettling).1, (hs'.healthy.committedClaims_discharge ha' hsettling).1,
    h.lists]

/-- One command on two matching engines whose checked accounts are swept. -/
theorem Matches.answers (h : Matches e e') (hr : Reachable config e) (hr' : Reachable config e')
    (hb : e.market.Backed now) (hb' : e'.market.Backed now)
    (hfresh : ∀ a, command.claimant = some a → e.ledger.Fresh a now ∧ e'.ledger.Fresh a now)
    (hroom : (e.perform command now b).1 ≠ .error (.ledger (.slabExhausted .reservation)))
    (hroom' : (e'.perform command now b).1 ≠ .error (.ledger (.slabExhausted .reservation))) :
    Answer.Kindred (e.perform command now b) (e'.perform command now b) := by
  have hs := sane_of_reachable hr
  have hs' := sane_of_reachable hr'
  cases command with
  | creditAccount account free => exact h.kindred.creditAccount account free
  | registerContract contract eventDate => exact h.kindred.registerContract contract eventDate
  | submitRequest requester deadline specs =>
      obtain ⟨hfresh, hfresh'⟩ := hfresh requester rfl
      exact h.kindred.submitRequest (h.checkReservable hs hs' hb hb' hfresh hfresh') hroom hroom'
  | rejectRequest r => exact h.kindred.rejectRequest r
  | submitQuote maker r leg price size expiresAt =>
      obtain ⟨hfresh, hfresh'⟩ := hfresh maker rfl
      exact h.kindred.submitQuote (fun _ amount hchecked =>
        h.withdrawStanding hs hs' hb hb' hfresh hfresh' hchecked amount) hroom hroom'
  | cancelQuote q =>
      have hsome : (e.ledger.quote q).isNone = (e'.ledger.quote q).isNone := by
        have hmaker := congrArg Option.isNone (h.kindred.ledger.maker q)
        rwa [Option.isNone_map, Option.isNone_map] at hmaker
      simp only [Engine.perform, hsome]
      split <;> exact h.kindred.refuse _
  | acceptRequest r expected =>
      exact h.kindred.acceptRequest hs hs' hb hb' fun y hy hopened leg hleg =>
        hs.bestOnLeg_ne_sizeTooSmall (numbered_of_reachable hr) hy hopened hleg now
  | pollSettlement nonce status =>
      exact h.kindred.pollSettlement hs hs' (fun r y hy hset => h.dischargeCommitted hs hs' hy hset) nonce status
  | reportOracleStatus contract status => exact h.kindred.reportOracleStatus contract status
  | settleEscrow escrow contract => exact h.kindred.settleEscrow escrow contract

/-- One plan on two such engines has the same fills. -/
theorem Kindred.fills_eq (h : Kindred e e') {r : ReqIdx} {acc acc' : Acceptance} {fills fills' : List Fill}
    (hc : Checked e r now b fills acc) (hc' : Checked e' r now b fills' acc') (hacc : acc.Kindred acc') :
    fills = fills' := by
  have hplan : fills.map Fill.selection = fills'.map Fill.selection :=
    hc.plan.symm.trans (hacc.plan.trans hc'.plan)
  have hauction : acc.record.auction = acc'.record.auction := (congrArg Request.auction hacc.record : _)
  have hlegs : fills.map Fill.leg = fills'.map Fill.leg := by rw [hc.legs, hauction, ← hc'.legs]
  refine List.ext_getElem? fun j => ?_
  have hselection := congrArg (fun plan => plan[j]?) hplan
  have hleg := congrArg (fun legs => legs[j]?) hlegs
  simp only [List.getElem?_map] at hselection hleg
  cases hf : fills[j]? with
  | none =>
      rw [hf, Option.map_none] at hselection
      exact (Option.map_eq_none_iff.mp hselection.symm).symm
  | some f =>
      rw [hf, Option.map_some] at hselection hleg
      obtain ⟨f', hf', hsel⟩ := Option.map_eq_some_iff.mp hselection.symm
      rw [hf', Option.map_some, Option.some.injEq] at hleg
      have hquote : f'.quote = f.quote := congrArg Selection.quote hsel
      have hoffer := (hc.wins j f hf).fits.onLeg.offer
      have hoffer' := (hc'.wins j f' hf').fits.onLeg.offer
      rw [hquote, ← h.ledger.offers, hoffer] at hoffer'
      obtain ⟨quote, offer, leg⟩ := f
      obtain ⟨quote', offer', leg'⟩ := f'
      obtain rfl : quote' = quote := hquote
      obtain rfl : offer = offer' := Option.some.inj hoffer'
      obtain rfl : leg = leg' := hleg
      rw [hf']

theorem Matches.lists_acceptRequest (h : Matches e e') (hr : Reachable config e) (hs' : e'.Sane)
    (hb : e.market.Backed now) (hb' : e'.market.Backed now) (r : ReqIdx) (expected : List ExpectedFill) :
    (e.acceptRequest r expected now b).2.1.ledger.committedClaims =
      (e'.acceptRequest r expected now b).2.1.ledger.committedClaims := by
  have hs := sane_of_reachable hr
  obtain ⟨_, -, hadv⟩ := hs.advances (.acceptRequest r expected) now b
  obtain ⟨_, -, hadv'⟩ := hs'.advances (.acceptRequest r expected) now b
  have hi : (e.acceptRequest r expected now b).2.1.ledger.Intact := hadv.sane.healthy.intact
  have hi' : (e'.acceptRequest r expected now b).2.1.ledger.Intact := hadv'.sane.healthy.intact
  unfold Engine.acceptRequest at hi hi' ⊢
  rcases h.kindred.checkAccept (r := r) (b := b) hs hs' hb hb' fun y hy hopened leg hleg =>
      hs.bestOnLeg_ne_sizeTooSmall (numbered_of_reachable hr) hy hopened hleg now with
    ⟨err, heq, heq'⟩ | ⟨acc, acc', heq, heq', hacc⟩
  · rw [heq, heq']
    exact h.lists
  · rw [heq] at hi
    rw [heq'] at hi'
    rw [heq, heq']
    obtain ⟨fills, hc⟩ := hs.healthy.checkAccept heq
    obtain ⟨fills', hc'⟩ := hs'.healthy.checkAccept heq'
    obtain rfl := h.kindred.fills_eq hc hc' hacc
    have hauction : acc.record.auction = acc'.record.auction := (congrArg Request.auction hacc.record : _)
    have hlists := (hs.lists_commitAccept hb hc).committedClaims hs.healthy.intact hi
    have hlists' := (hs'.lists_commitAccept hb' hc').committedClaims hs'.healthy.intact hi'
    refine hlists.trans (Eq.trans ?_ hlists'.symm)
    rw [h.lists, hauction, hacc.total]

/-- And lists the same claims. -/
theorem Matches.lists_perform (h : Matches e e') (hr : Reachable config e) (hr' : Reachable config e')
    (hb : e.market.Backed now) (hb' : e'.market.Backed now)
    (hanswer : (e.perform command now b).1 = (e'.perform command now b).1) :
    (e.perform command now b).2.1.ledger.committedClaims =
      (e'.perform command now b).2.1.ledger.committedClaims := by
  have hs := sane_of_reachable hr
  have hs' := sane_of_reachable hr'
  have hspared : ∀ {e : Engine}, e.Sane → (∀ r expected, command ≠ .acceptRequest r expected) →
      (∀ nonce status, command ≠ .pollSettlement nonce status) →
      (e.perform command now b).2.1.ledger.committedClaims = e.ledger.committedClaims := by
    intro e hs haccept hpoll
    obtain ⟨_, -, hadv⟩ := hs.advances command now b
    exact (hs.spared_perform command now b haccept hpoll).committedClaims hs.healthy.intact hadv.sane.healthy.intact
  cases hcommand : command with
  | acceptRequest r expected => exact h.lists_acceptRequest hr hs' hb hb' r expected
  | pollSettlement nonce status =>
      rw [hcommand] at hanswer
      have hanswer : (e.pollSettlement nonce status now b).1 = (e'.pollSettlement nonce status now b).1 := hanswer
      obtain ⟨hemptied, hkept⟩ := hs.committedClaims_pollSettlement nonce status now b
      obtain ⟨hemptied', hkept'⟩ := hs'.committedClaims_pollSettlement nonce status now b
      show (e.pollSettlement nonce status now b).2.1.ledger.committedClaims =
        (e'.pollSettlement nonce status now b).2.1.ledger.committedClaims
      by_cases hresolves : (e.pollSettlement nonce status now b).1 = .ok () ∧ status.isTerminal = true
      · rw [hemptied hresolves, hemptied' (hanswer ▸ hresolves), h.lists, h.kindred.ledger.resolveNonce]
      · rw [hkept hresolves, hkept' (hanswer ▸ hresolves), h.lists]
  | _ =>
      rw [← hcommand, hspared hs (by simp [hcommand]) (by simp [hcommand]),
        hspared hs' (by simp [hcommand]) (by simp [hcommand]), h.lists]

theorem mem_touchedAccounts (hclaimant : command.claimant = some account) :
    account ∈ e.touchedAccounts command := by
  cases command with
  | submitRequest requester deadline legs =>
      obtain rfl : requester = account := Option.some.inj hclaimant
      exact List.mem_singleton.mpr rfl
  | submitQuote maker r leg price size expiresAt =>
      obtain rfl : maker = account := Option.some.inj hclaimant
      exact List.mem_cons_self
  | _ => cases hclaimant

/-- A command normalises what it checks, so matching engines answer alike and match again. -/
theorem Matches.step {last' : Nat} {input : Input} (h : Matches e e') (hr : ReachableAt config last e)
    (hr' : ReachableAt config last' e') (hnow : last ≤ input.now) (hnow' : last' ≤ input.now)
    (hroom : (e.answer input).1 ≠ .error (.ledger (.slabExhausted .reservation)))
    (hroom' : (e'.answer input).1 ≠ .error (.ledger (.slabExhausted .reservation))) :
    Answer.Kindred (e.answer input) (e'.answer input) ∧ Matches (e.step input) (e'.step input) := by
  have hb := hr.backed_normalisedFor input hnow
  have hb' := hr'.backed_normalisedFor input hnow'
  have htouched := h.kindred.touchedAccounts input.command
  have hswept : Matches (e.normalisedFor input) (e'.normalisedFor input) := by
    rw [normalisedFor, normalisedFor, ← htouched]
    exact ((h.normaliseAll_right hr'.sane _ input.now).symm.normaliseAll_right hr.sane _ input.now).symm
  have hn : Reachable config (e.normalisedFor input) := hr.reachable.normaliseAll _ _
  have hn' : Reachable config (e'.normalisedFor input) := hr'.reachable.normaliseAll _ _
  have hanswers : Answer.Kindred (e.answer input) (e'.answer input) :=
    hswept.answers hn hn' hb hb'
      (fun a ha => ⟨hr.sane.fresh_normaliseAll (mem_touchedAccounts ha),
        hr'.sane.fresh_normaliseAll (mem_touchedAccounts ha)⟩) hroom hroom'
  exact ⟨hanswers, hanswers.engine, hswept.lists_perform hn hn' hb hb' hanswers.answer⟩

-- ============================================================================
-- Runs with sweeps
-- ============================================================================

/-- A command, or a sweep of one account between commands. -/
inductive Act where
  | command (input : Input)
  | sweep (account now : Nat)

def Act.instant : Act → Nat
  | .command input => input.now
  | .sweep _ now => now

def act (e : Engine) : Act → Engine
  | .command input => e.step input
  | .sweep account now => e.normalise account now

def play (e : Engine) (acts : List Act) : Engine := acts.foldl act e

/-- The commands among the acts. -/
def commands : List Act → List Input
  | [] => []
  | .command input :: acts => input :: commands acts
  | .sweep _ _ :: acts => commands acts

/-- What every command of a run answers, and the buffer it leaves. -/
def replies : Engine → List Act → List (Except EngineError Unit × EventBuffer)
  | _, [] => []
  | e, .command input :: acts =>
    ((e.answer input).1, (e.answer input).2.2) :: replies (e.step input) acts
  | e, .sweep account now :: acts => replies (e.normalise account now) acts

/-- Acts at instants that never go back. -/
def Timed : Nat → List Act → Prop
  | _, [] => True
  | now, act :: acts => now ≤ act.instant ∧ Timed act.instant acts

/-- No command is refused for want of a slot for its claim. -/
def Roomy (e : Engine) (acts : List Act) : Prop :=
  ∀ x ∈ e.replies acts, x.1 ≠ .error (.ledger (.slabExhausted .reservation))

variable {last' : Nat} {acts acts' : List Act}

theorem ReachableAt.act {a : Act} (h : ReachableAt config last e) (hnow : last ≤ a.instant) :
    ReachableAt config a.instant (e.act a) := by
  cases a with
  | command input => exact h.step input hnow
  | sweep account now => exact h.normalise account hnow

/-- Two runs of the same commands from matching engines. -/
theorem Matches.plays (h : Matches e e') (hr : ReachableAt config last e) (hr' : ReachableAt config last' e')
    (htimed : Timed last acts) (htimed' : Timed last' acts') (hsame : commands acts = commands acts')
    (hroom : e.Roomy acts) (hroom' : e'.Roomy acts') :
    e.replies acts = e'.replies acts' ∧ Matches (e.play acts) (e'.play acts') := by
  induction acts generalizing e e' last last' acts' with
  | nil =>
      -- what is left of the other run is sweeps
      induction acts' generalizing e' last' with
      | nil => exact ⟨rfl, h⟩
      | cons a acts' ih =>
          cases a with
          | command input => cases hsame
          | sweep account now =>
              exact ih (h.normalise_right hr'.sane account now) (hr'.act htimed'.1) htimed'.2 hsame hroom'
  | cons a acts ih =>
      cases a with
      | sweep account now =>
          exact ih (h.symm.normalise_right hr.sane account now).symm (hr.act htimed.1) hr' htimed.2 htimed' hsame
            hroom hroom'
      | command input =>
          induction acts' generalizing e' last' with
          | nil => cases hsame
          | cons a' acts' ih' =>
              cases a' with
              | sweep account now =>
                  exact ih' (h.normalise_right hr'.sane account now) (hr'.act htimed'.1) htimed'.2 hroom' hsame
              | command input' =>
                  obtain ⟨rfl, hrest⟩ := List.cons.inj hsame
                  obtain ⟨hanswer, hstep⟩ := h.step hr hr' htimed.1 htimed'.1
                    (hroom _ List.mem_cons_self) (hroom' _ List.mem_cons_self)
                  obtain ⟨hreplies, hplay⟩ := ih hstep (hr.act htimed.1) (hr'.act htimed'.1) htimed.2 htimed'.2 hrest
                    (fun x hx => hroom x (List.mem_cons_of_mem _ hx))
                    fun x hx => hroom' x (List.mem_cons_of_mem _ hx)
                  refine ⟨?_, hplay⟩
                  rw [replies, replies, hanswer.answer, hanswer.events, hreplies]

/-- Release-on-access is as good as an eager sweep.  Sweeps put between the commands of a run,
    of any accounts and at any instants in order, change no answer and no event, as long as
    neither run is short of a slot for a claim; and the two leave the same requests and quotes
    in the same slots. -/
theorem sweeps_invisible (h : ReachableAt config last e) (htimed : Timed last acts) (htimed' : Timed last acts')
    (hsame : commands acts = commands acts') (hroom : e.Roomy acts) (hroom' : e.Roomy acts') :
    e.replies acts = e.replies acts' ∧ Matches (e.play acts) (e.play acts') :=
  (Matches.refl e).plays h h htimed htimed' hsame hroom hroom'

/-- Three quotes of the basket have expired when it is accepted; before that, and between the
    report that it failed and its own instant, accounts are swept, one of them unknown. -/
def sweptActs : List Act :=
  [.sweep 3 31, .sweep 9 31, .sweep 1 43,
    .command ⟨.acceptRequest ⟨0, 0⟩ [⟨0, 550000⟩, ⟨1, 500000⟩], 43, 9⟩, .sweep 2 46, .sweep 0 60,
    .command ⟨.pollSettlement (Nonce.of ⟨0, 0⟩) .reverted, 60, 9⟩,
    .command ⟨.submitRequest 0 80 [⟨0, .yes, 2, 900000⟩], 60, 9⟩]

def unsweptActs : List Act := (commands sweptActs).map .command

/-- The slabs of claims differ before and after. -/
theorem sweeps_invisible_crowded : (crowded.play (sweptActs.take 3)).ledger.reservations.live = 3 ∧
    crowded.ledger.reservations.live = 6 ∧
    (crowded.play sweptActs).ledger.reservations ≠ (crowded.play unsweptActs).ledger.reservations ∧
    crowded.replies sweptActs = crowded.replies unsweptActs ∧
    Matches (crowded.play sweptActs) (crowded.play unsweptActs) :=
  have hroom : ∀ acts : List Act, (crowded.replies acts).all (fun x => x.1.isOk) = true → crowded.Roomy acts := by
    intro acts hall x hx herr
    have hok := List.all_eq_true.mp hall x hx
    rw [herr] at hok
    cases hok
  ⟨by decide +kernel, by decide +kernel, by decide +kernel,
    sweeps_invisible reachableAt_crowded (by simp [Timed, sweptActs, Act.instant])
      (by simp [Timed, unsweptActs, sweptActs, commands, Act.instant]) rfl
      (hroom _ (by decide +kernel)) (hroom _ (by decide +kernel))⟩

end Engine

end RfqSettlement
