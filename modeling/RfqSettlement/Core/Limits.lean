/-
  RfqSettlement.Core.Limits

  The limit price is not leaked to makers.

  `Engine.unpriced r` is an engine without the limits of the legs of `r` and without what
  follows from them: the amount of its claim, what its requester has mirrored and reserved,
  and the prices last published for it.  Two engines with one such image are alike to
  everyone but the requester (`Alike`), and agree on everything else the requester has
  (`Elsewhere`); quotes by other makers keep both, and the two together give the image back.
-/

import RfqSettlement.Core.Secrecy
import RfqSettlement.Core.Presentation

namespace RfqSettlement

-- ============================================================================
-- Without the limits
-- ============================================================================

def Leg.unpriced (x : Leg) : Leg := { x with limit := 0, published := none }

def Request.unpriced (y : Request) : Request := { y with legs := y.legs.map Leg.unpriced }

def MirroredBalance.unpriced (m : MirroredBalance) : MirroredBalance := { m with free := 0, reserved := 0 }

def Reservation.unpriced (v : Reservation) : Reservation := v.setAmount 0

namespace Ledger

/-- `l` without the limits of `r` and the amounts that follow from them. -/
def unpriced (l : Ledger) (r : ReqIdx) : Ledger :=
  match l.request r with
  | none => l
  | some y => { l with
      accounts := l.accounts.modify y.requester MirroredBalance.unpriced
      reservations := match y.claim with
        | none => l.reservations
        | some c => l.reservations.modify c Reservation.unpriced
      requests := l.requests.modify r Request.unpriced }

end Ledger

theorem Leg.alike_iff_unpriced {x x' : Leg} : Leg.Alike True x x' ↔ x.unpriced = x'.unpriced := by
  constructor
  · rintro ⟨hcontract, hside, hsize, hhead, hcount, -⟩
    simp only [Leg.unpriced, hcontract, hside, hsize, hhead, hcount]
  · intro h
    simp only [Leg.unpriced, Leg.mk.injEq] at h
    obtain ⟨hcontract, hside, hsize, -, hhead, hcount, -⟩ := h
    exact ⟨hcontract, hside, hsize, hhead, hcount, fun hfalse => absurd trivial hfalse⟩

theorem Request.alike_iff_unpriced {a : Nat} {y y' : Request} (hown : y.requester = a) :
    Request.Alike a y y' ↔ y.unpriced = y'.unpriced := by
  have hlegs : List.Forall₂ (Leg.Alike (y.requester = a)) y.legs y'.legs ↔
      y.legs.map Leg.unpriced = y'.legs.map Leg.unpriced := by
    rw [eq_true hown]
    have hmap : List.Forall₂ (Leg.Alike True) y.legs y'.legs ↔
        List.Forall₂ Eq (y.legs.map Leg.unpriced) (y'.legs.map Leg.unpriced) := by
      rw [List.forall₂_map_left_iff, List.forall₂_map_right_iff]
      exact ⟨fun h => h.imp fun _ _ => Leg.alike_iff_unpriced.mp,
        fun h => h.imp fun _ _ => Leg.alike_iff_unpriced.mpr⟩
    rw [hmap, List.forall₂_eq_eq_eq]
  constructor
  · intro h
    simp only [Request.unpriced, hlegs.mp h.legs, h.requester, h.deadline, h.state, h.claim,
      h.committedHead]
  · intro h
    simp only [Request.unpriced, Request.mk.injEq] at h
    obtain ⟨hrequester, hdeadline, hstate, hlegs', hclaim, hhead⟩ := h
    exact ⟨hrequester, hdeadline, hstate, hclaim, hhead, hlegs.mpr hlegs'⟩

theorem Request.unpriced_inj {y y' : Request} (h : y.unpriced = y'.unpriced) :
    y.requester = y'.requester ∧ y.state = y'.state ∧ y.claim = y'.claim := by
  simp only [Request.unpriced, Request.mk.injEq] at h
  exact ⟨h.1, h.2.2.1, h.2.2.2.2.1⟩

/-- A record that differs at most in what its legs show, and shows the same. -/
theorem Request.Alike.eq_of_shown {a : Nat} {y y' : Request} (h : Request.Alike a y y')
    (hshown : ∀ i, (y.leg i).map (fun x => (x.published, x.limit)) =
      (y'.leg i).map fun x => (x.published, x.limit)) : y = y' := by
  have hlegs : y.legs = y'.legs := by
    refine List.ext_getElem? fun i => ?_
    have hx := Entrywise.getElem? h.legs i
    have hshown := hshown i
    simp only [Request.leg] at hshown
    generalize y.legs[i]? = x at hx hshown
    generalize y'.legs[i]? = x' at hx hshown
    cases hx with
    | none => rfl
    | @some x x' hx =>
        obtain ⟨hpublished, hlimit⟩ := Prod.mk.inj (Option.some.inj hshown)
        obtain ⟨contract, side, size, limit, quotesHead, quoteCount, published⟩ := x
        obtain ⟨hcontract, hside, hsize, hhead, hcount, -⟩ := hx
        simp only at hcontract hside hsize hhead hcount hpublished hlimit
        subst hcontract hside hsize hhead hcount hpublished hlimit
        rfl
  obtain ⟨requester, deadline, state, legs, claim, committedHead⟩ := y
  obtain ⟨hrequester, hdeadline, hstate, hclaim, hhead, -⟩ := h
  simp only at hrequester hdeadline hstate hclaim hhead hlegs
  subst hrequester hdeadline hstate hclaim hhead hlegs
  rfl

namespace Market

variable {m m' : Market} {scope : Scope} {now : Nat} {c : ResIdx} {k : Claim} {r : ReqIdx}

/-- What opens commits nothing and discharges nothing. -/
theorem Step.committed_of_opens (hstep : Step now scope m m') (hopens : scope.Opens) (account : Nat) :
    (m'.totals account).map Totals.committed = (m.totals account).map Totals.committed := by
  have hmodify : ∀ (m : Market) (i : Nat) (f : Totals → Totals), (∀ t, (f t).committed = t.committed) →
      ((m.modifyTotals i f).totals account).map Totals.committed =
        (m.totals account).map Totals.committed := by
    intro m i f hf
    simp only [modifyTotals, Function.update_apply]
    split
    next heq =>
      subst heq
      rw [Option.map_map]
      exact congrArg (fun g => (m.totals account).map g) (funext hf)
    next => rfl
  have hletGo : ∀ held, ((m.letGo held).totals account).map Totals.committed =
      (m.totals account).map Totals.committed := by
    intro held
    cases held with
    | none => rfl
    | some x => exact hmodify m _ _ fun _ => rfl
  cases hstep with
  | mirror => exact hmodify m _ _ fun _ => rfl
  | expire => exact hmodify m _ _ fun _ => rfl
  | openAuction => exact hmodify (m.setAuction _ _) _ _ fun _ => rfl
  | openOffer => exact hmodify (m.setOffer _ _) _ _ fun _ => rfl
  | withdraw => exact hletGo _
  | consume hscope => rw [hscope] at hopens; exact hopens.elim
  | settle hscope => rw [hscope] at hopens; exact hopens.elim
  | reject hscope => rw [hscope] at hopens; exact hopens.elim
  | discharge hscope => rw [hscope] at hopens; exact hopens.elim
  | resolve hscope => rw [hscope] at hopens; exact hopens.elim
  | close hscope => rw [hscope] at hopens; exact hopens.elim

theorem Steps.committed_of_opens (hsteps : Steps now scope m m') (hopens : scope.Opens) (account : Nat) :
    (m'.totals account).map Totals.committed = (m.totals account).map Totals.committed := by
  induction hsteps with
  | refl => rfl
  | tail _ hstep ih => exact (hstep.committed_of_opens hopens account).trans ih

theorem Step.claim_of_committed (hstep : Step now scope m m') (hopens : scope.Opens)
    (hk : m'.claims c = some k) (hcommitted : k.status = .committed r) : m.claims c = some k := by
  cases hstep with
  | mirror => exact hk
  | expire =>
      rw [claims_free] at hk
      split at hk
      · cases hk
      · exact hk
  | openAuction =>
      rw [claims_reserve] at hk
      split at hk
      next =>
        obtain rfl := Option.some.inj hk
        cases hcommitted
      next => exact hk
  | openOffer =>
      rw [claims_reserve] at hk
      split at hk
      next =>
        obtain rfl := Option.some.inj hk
        cases hcommitted
      next => exact hk
  | withdraw => exact claims_of_letGo hk
  | consume hscope => rw [hscope] at hopens; exact hopens.elim
  | settle hscope => rw [hscope] at hopens; exact hopens.elim
  | reject hscope => rw [hscope] at hopens; exact hopens.elim
  | discharge hscope => rw [hscope] at hopens; exact hopens.elim
  | resolve hscope => rw [hscope] at hopens; exact hopens.elim
  | close hscope => rw [hscope] at hopens; exact hopens.elim

theorem Steps.claim_of_committed (hsteps : Steps now scope m m') (hopens : scope.Opens)
    (hk : m'.claims c = some k) (hcommitted : k.status = .committed r) : m.claims c = some k := by
  induction hsteps with
  | refl => exact hk
  | tail _ hstep ih => exact ih (hstep.claim_of_committed hopens hk hcommitted)

theorem Moves.not_opens {s s' : RequestState} (h : Moves scope r s s') : ¬ scope.Opens := by
  intro hopens
  cases h with
  | settle h => rw [h] at hopens; exact hopens
  | reject h => rw [h] at hopens; exact hopens
  | resolve h => rw [h] at hopens; exact hopens

/-- What opens leaves every auction there as it is. -/
theorem Steps.auction_of_opens (hsteps : Steps now scope m m') (hopens : scope.Opens) {b : Auction}
    (hb : m.auctions r = some b) : m'.auctions r = some b := by
  obtain ⟨st, hst, rfl | hmoves⟩ := hsteps.auction hb
  · exact hst
  · exact absurd hopens hmoves.not_opens

end Market

namespace Ledger

variable {l l' : Ledger} {r : ReqIdx} {y y' : Request} {a : Nat}

/-- The same, record by record: `y` and `y'` are the request `r` in each. -/
structure Veiled (r : ReqIdx) (y y' : Request) (l l' : Ledger) : Prop where
  record : y.unpriced = y'.unpriced
  accounts : ∀ i ≠ y.requester, l.account i = l'.account i
  account : (l.account y.requester).map MirroredBalance.unpriced =
    (l'.account y.requester).map MirroredBalance.unpriced
  contracts : l.contracts = l'.contracts
  claimSlots : Slab.Twins (fun _ _ => True) l.reservations l'.reservations
  claims : ∀ c, y.claim ≠ some c → l.reservation c = l'.reservation c
  claim : ∀ c, y.claim = some c → (l.reservation c).map Reservation.unpriced =
    (l'.reservation c).map Reservation.unpriced
  requestSlots : Slab.Twins (fun _ _ => True) l.requests l'.requests
  requests : ∀ r' ≠ r, l.request r' = l'.request r'
  quotes : l.quotes = l'.quotes
  sound : l.sound = l'.sound

theorem unpriced_eq (hr : l.request r = some y) : l.unpriced r = { l with
    accounts := l.accounts.modify y.requester MirroredBalance.unpriced
    reservations := match y.claim with
      | none => l.reservations
      | some c => l.reservations.modify c Reservation.unpriced
    requests := l.requests.modify r Request.unpriced } := by
  simp only [unpriced, hr]

theorem request_unpriced (r : ReqIdx) : (l.unpriced r).request r = (l.request r).map Request.unpriced := by
  cases hr : l.request r with
  | none =>
      simp only [unpriced, hr]
      rfl
  | some y =>
      rw [unpriced_eq hr, ← hr]
      exact Slab.get_modify_self

/-- The images are equal exactly if the records are. -/
theorem unpriced_eq_iff (hr : l.request r = some y) (hr' : l'.request r = some y') :
    l.unpriced r = l'.unpriced r ↔ Veiled r y y' l l' := by
  have hself : (l.requests.get r).map Request.unpriced = (l'.requests.get r).map Request.unpriced ↔
      y.unpriced = y'.unpriced := by
    rw [show l.requests.get r = some y from hr, show l'.requests.get r = some y' from hr']
    exact Option.some_inj
  rw [unpriced_eq hr, unpriced_eq hr', Ledger.mk.injEq, Slab.modify_eq_modify_iff, hself]
  constructor
  · rintro ⟨haccounts, hcontracts, hreservations, ⟨hslots, hrequests, hrecord⟩, hquotes, hsound⟩
    obtain ⟨hrequester, -, hclaim⟩ := Request.unpriced_inj hrecord
    rw [← hrequester, Entrywise.modify_eq_modify_iff] at haccounts
    rw [← hclaim] at hreservations
    obtain ⟨hclaimSlots, hclaims, hheld⟩ : Slab.Twins (fun _ _ => True) l.reservations l'.reservations ∧
        (∀ c, y.claim ≠ some c → l.reservation c = l'.reservation c) ∧
        ∀ c, y.claim = some c → (l.reservation c).map Reservation.unpriced =
          (l'.reservation c).map Reservation.unpriced := by
      cases hc : y.claim with
      | none =>
          rw [hc] at hreservations
          obtain hreservations : l.reservations = l'.reservations := hreservations
          refine ⟨hreservations ▸ .refl (fun _ => trivial) _, fun c _ => ?_, fun c hc' => by cases hc'⟩
          rw [reservation, reservation, hreservations]
      | some c =>
          rw [hc] at hreservations
          obtain ⟨hshape, hother, hheld⟩ := Slab.modify_eq_modify_iff.mp hreservations
          refine ⟨hshape, fun c' hne => hother c' fun heq => hne (by rw [heq]), fun c' hc' => ?_⟩
          obtain rfl := Option.some.inj hc'
          exact hheld
    exact ⟨hrecord, haccounts.1, haccounts.2, hcontracts, hclaimSlots, hclaims, hheld, hslots, hrequests,
      hquotes, hsound⟩
  · intro h
    obtain ⟨hrequester, -, hclaim⟩ := Request.unpriced_inj h.record
    refine ⟨?_, h.contracts, ?_, ⟨h.requestSlots, h.requests, h.record⟩, h.quotes, h.sound⟩
    · rw [← hrequester]
      exact Entrywise.modify_eq_modify_iff.mpr ⟨h.accounts, h.account⟩
    · rw [← hclaim]
      cases hc : y.claim with
      | none =>
          refine (h.claimSlots.of_get fun c => ?_).eq
          have hsame : l.reservations.get c = l'.reservations.get c := h.claims c (by rw [hc]; simp)
          rw [hsame]
          cases l'.reservations.get c with
          | none => exact .none
          | some v => exact .some rfl
      | some c =>
          refine Slab.modify_eq_modify_iff.mpr ⟨h.claimSlots, fun c' hne => ?_, h.claim c hc⟩
          exact h.claims c' (by rw [hc]; exact fun heq => hne (Option.some.inj heq).symm)

-- ============================================================================
-- Alike, and elsewhere
-- ============================================================================

/-- Of what `a` alone knows, all that does not concern the limits of `r`: what its other
    legs show, its committed total and its committed claims. -/
structure Elsewhere (r : ReqIdx) (a : Nat) (l l' : Ledger) : Prop where
  shown : ∀ r' ≠ r, ∀ i, l.shown r' i = l'.shown r' i
  committed : (l.market.totals a).map Totals.committed = (l'.market.totals a).map Totals.committed
  claims : ∀ c k k' r', l.market.claims c = some k → l'.market.claims c = some k' →
    k.status = .committed r' → k = k'

variable {max max' : Nat}

/-- The claim the request names is its own: reserved, and held by its requester. -/
theorem Healthy.own_claim (h : l.Healthy max none) (hr : l.request r = some y) (hopened : y.state = .opened)
    {c : ResIdx} {v : Reservation} (hclaim : y.claim = some c) (hv : l.reservation c = some v) :
    v.account = y.requester ∧ ∀ r', v.toClaim.status ≠ .committed r' := by
  have hheld : l.book.ownerClaim (.request r) = some (some c) := by
    rw [ownerClaim_book, ownerClaim, hr, Option.map_some, hclaim]
  obtain ⟨k, hk, howner⟩ := h.intact.balanced.holder _ _ hheld
  obtain rfl := Option.some.inj ((book_claims hv).symm.trans hk)
  obtain ⟨a, ha, hbacks⟩ := h.coherent.auctioned c _ r hk howner
  obtain rfl := Option.some.inj ((market_auctions hr).symm.trans ha)
  obtain ⟨e, hreserved⟩ := h.reserved_of_opened ha hopened hk howner
  refine ⟨hbacks.account, fun r' hcommitted => ?_⟩
  cases hreserved.symm.trans hcommitted

theorem Veiled.alike (h : Veiled r y y' l l') (hh : l.Healthy max none) (hr : l.request r = some y)
    (hr' : l'.request r = some y') (hopened : y.state = .opened) : Alike y.requester l l' where
  accounts i := by
    by_cases hi : i = y.requester
    · subst hi
      have hm := h.account
      generalize l.account y.requester = m at hm ⊢
      generalize l'.account y.requester = m' at hm ⊢
      cases m with
      | none =>
          cases m' with
          | none => exact .none
          | some m' => cases hm
      | some m =>
          cases m' with
          | none => cases hm
          | some m' =>
              have hm := Option.some.inj hm
              simp only [MirroredBalance.unpriced, MirroredBalance.mk.injEq] at hm
              exact .some ⟨hm.2.2.2.1, hm.2.2.2.2, fun hother => absurd rfl hother⟩
    · rw [h.accounts i hi]
      cases l'.account i with
      | none => exact .none
      | some m => exact .some (.refl m)
  contracts := h.contracts
  reservations := by
    refine h.claimSlots.of_get fun c => ?_
    by_cases hclaim : y.claim = some c
    · have hv : (l.reservations.get c).map Reservation.unpriced =
          (l'.reservations.get c).map Reservation.unpriced := h.claim c hclaim
      have hown := fun v hv => (hh.own_claim hr hopened hclaim (v := v) hv).1
      simp only [reservation] at hown
      generalize l.reservations.get c = v at hv hown ⊢
      generalize l'.reservations.get c = v' at hv ⊢
      cases v with
      | none =>
          cases v' with
          | none => exact .none
          | some v' => cases hv
      | some v =>
          cases v' with
          | none => cases hv
          | some v' =>
              have hv := Option.some.inj hv
              simp only [Reservation.unpriced, Reservation.setAmount, Reservation.mk.injEq] at hv
              exact .some ⟨hv.1, hv.2.2.1, hv.2.2.2, fun hother => absurd (hown v rfl) hother⟩
    · have hsame : l.reservations.get c = l'.reservations.get c := h.claims c hclaim
      rw [hsame]
      cases l'.reservations.get c with
      | none => exact .none
      | some v => exact .some (.refl v)
  requests := by
    refine h.requestSlots.of_get fun r' => ?_
    by_cases heq : r' = r
    · subst heq
      rw [show l.requests.get r' = some y from hr, show l'.requests.get r' = some y' from hr']
      exact .some ((Request.alike_iff_unpriced rfl).mpr h.record)
    · have hsame : l.requests.get r' = l'.requests.get r' := h.requests r' heq
      rw [hsame]
      cases l'.requests.get r' with
      | none => exact .none
      | some y => exact .some (.refl y)
  quotes := h.quotes

theorem Veiled.elsewhere (h : Veiled r y y' l l') (hh : l.Healthy max none) (hr : l.request r = some y)
    (hopened : y.state = .opened) : Elsewhere r y.requester l l' where
  shown r' hne i := by rw [shown, shown, legOf, legOf, h.requests r' hne]
  committed := by
    have hm := congrArg (Option.map MirroredBalance.committed) h.account
    rw [Option.map_map, Option.map_map] at hm
    show ((l.account y.requester).map _).map _ = ((l'.account y.requester).map _).map _
    rw [Option.map_map, Option.map_map]
    exact hm
  claims c k k' r' hk hk' hcommitted := by
    obtain ⟨v, hv, rfl⟩ := reservation_of_market hk
    obtain ⟨v', hv', rfl⟩ := reservation_of_market hk'
    by_cases hclaim : y.claim = some c
    · exact absurd hcommitted ((hh.own_claim hr hopened hclaim hv).2 r')
    · rw [h.claims c hclaim, hv', Option.some.injEq] at hv
      rw [hv]

/-- What a claim holds is told by its owner's record, but for a committed one. -/
theorem Alike.amount_eq (h : Alike a l l') (he : Elsewhere r a l l') (hh : l.Healthy max none)
    (hh' : l'.Healthy max' none) (hrequests : ∀ r' ≠ r, l.request r' = l'.request r') {c : ResIdx}
    {v v' : Reservation} (hv : l.reservation c = some v) (hv' : l'.reservation c = some v')
    (halike : Reservation.Alike a v v') (howner : v.owner ≠ .request r) : v.amount = v'.amount := by
  have hk := market_claims hv
  have hk' := market_claims hv'
  have hstatus : v'.toClaim.status = v.toClaim.status := congrArg ClaimLinks.status halike.links.symm
  cases hs : v.toClaim.status with
  | committed r' => exact congrArg Claim.amount (he.claims c _ _ r' hk hk' hs)
  | reserved e =>
      cases hown : v.owner with
      | quote q =>
          obtain ⟨o, leg, ho, hleg, hbacks⟩ := hh.coherent.offered c _ q hk hown
          obtain ⟨o', leg', ho', hleg', hbacks'⟩ :=
            hh'.coherent.offered c _ q hk' (halike.owner.symm.trans hown)
          obtain ⟨x, hx, rfl⟩ := quote_of_market ho
          obtain ⟨x', hx', rfl⟩ := quote_of_market ho'
          rw [h.quote, hx', Option.some.injEq] at hx
          subst hx
          have hsize : leg.size = leg'.size := by
            rw [legOf_market] at hleg hleg'
            rcases h.legOf x'.request x'.leg with ⟨hnone, -⟩ | ⟨y, z, z', -, hz, hz', hlegs⟩
            · rw [show (l.request x'.request).bind (fun y => y.leg x'.leg) = none from hnone] at hleg
              cases hleg
            · rw [show (l.request x'.request).bind (fun y => y.leg x'.leg) = some z from hz] at hleg
              rw [show (l'.request x'.request).bind (fun y => y.leg x'.leg) = some z' from hz'] at hleg'
              rw [← Option.some.inj hleg, ← Option.some.inj hleg']
              exact hlegs.size
          rw [show v.amount = _ from hbacks.amount, show v'.amount = _ from hbacks'.amount, hsize]
      | request r' =>
          obtain ⟨b, hb, hbacks⟩ := hh.coherent.auctioned c _ r' hk hown
          obtain ⟨b', hb', hbacks'⟩ := hh'.coherent.auctioned c _ r' hk' (halike.owner.symm.trans hown)
          obtain ⟨y, hy, rfl⟩ := request_of_market hb
          obtain ⟨y', hy', rfl⟩ := request_of_market hb'
          have hne : r' ≠ r := fun heq => howner (heq ▸ hown)
          rw [hrequests r' hne, hy', Option.some.injEq] at hy
          subst hy
          rw [show v.amount = _ from (hbacks.reserved e hs).2.2,
            show v'.amount = _ from (hbacks'.reserved e (hstatus.trans hs)).2.2]

/-- Alike, and agreeing elsewhere, two ledgers differ in nothing but the limits of `r`. -/
theorem Alike.veiled (h : Alike a l l') (he : Elsewhere r a l l') (hh : l.Healthy max none)
    (hh' : l'.Healthy max' none) (hr : l.request r = some y) (hr' : l'.request r = some y')
    (hown : y.requester = a) (hsound : l.sound = l'.sound) : Veiled r y y' l l' := by
  have hrequests : ∀ r' ≠ r, l.request r' = l'.request r' := by
    intro r' hne
    have hy := h.request r'
    have hshown : ∀ i, ((l.request r').bind fun y => y.leg i).map (fun x => (x.published, x.limit)) =
        ((l'.request r').bind fun y => y.leg i).map fun x => (x.published, x.limit) := he.shown r' hne
    generalize l.request r' = y at hy hshown ⊢
    generalize l'.request r' = y' at hy hshown ⊢
    cases hy with
    | none => rfl
    | some hy => rw [hy.eq_of_shown hshown]
  have hrecord : Request.Alike a y y' := by
    have hy := h.request r
    rw [hr, hr'] at hy
    cases hy with
    | some hy => exact hy
  refine ⟨(Request.alike_iff_unpriced hown).mp hrecord, fun i hi => h.account_eq (hown ▸ hi), ?_, h.contracts,
    h.reservations.imp fun _ _ _ => trivial, fun c hclaim => ?_, fun c _ => ?_,
    h.requests.imp fun _ _ _ => trivial, hrequests, h.quotes, hsound⟩
  · have hm := h.accounts y.requester
    have hcommitted : ((l.account y.requester).map MirroredBalance.totals).map Totals.committed =
        ((l'.account y.requester).map MirroredBalance.totals).map Totals.committed := hown ▸ he.committed
    generalize l.account y.requester = m at hm hcommitted ⊢
    generalize l'.account y.requester = m' at hm hcommitted ⊢
    cases hm with
    | none => rfl
    | @some m m' hm =>
        have hcommitted : m.committed = m'.committed := Option.some.inj hcommitted
        simp only [Option.map_some, MirroredBalance.unpriced, hm.expiryHead, hm.expiryTail, hcommitted]
  · have hv := h.reservation c
    rcases hl : l.reservation c with - | v
    · rw [hl] at hv
      generalize l'.reservation c = v' at hv
      cases hv with
      | none => rfl
    · rcases hl' : l'.reservation c with - | v'
      · rw [hl, hl'] at hv
        cases hv
      · rw [hl, hl'] at hv
        cases hv with
        | some hv =>
            have howner : v.owner ≠ .request r := by
              intro howner
              have hheld := hh.intact.balanced.held c _ (book_claims hl)
              rw [ownerClaim_book, show v.toClaim.owner = _ from howner, ownerClaim, hr, Option.map_some,
                Option.some.injEq] at hheld
              exact hclaim hheld
            have hamount := h.amount_eq he hh hh' hrequests hl hl' hv howner
            obtain ⟨account, amount, owner, links⟩ := v
            obtain ⟨haccount, hsame, hlinks, -⟩ := hv
            simp only at haccount hsame hlinks hamount
            subst haccount hsame hlinks hamount
            rfl
  · refine Entrywise.map_eq (h.reservation c) fun v v' hv => ?_
    simp only [Reservation.unpriced, Reservation.setAmount, hv.account, hv.owner, hv.links]

end Ledger

namespace Engine

variable {e e' : Engine} {input : Input} {r : ReqIdx} {y : Request} {a : Nat} {config : Config}

-- ============================================================================
-- One quote
-- ============================================================================

def unpriced (e : Engine) (r : ReqIdx) : Engine := { e with ledger := e.ledger.unpriced r }

/-- A quote of anyone but `a`. -/
def Probes (a : Nat) (command : Command) : Prop :=
  ∃ maker r i price size expiresAt, command = .submitQuote maker r i price size expiresAt ∧ maker ≠ a

theorem Sane.opens_of_probes (h : e.Sane) (hprobes : Probes a input.command) :
    (e.step input).Sane ∧
      ∃ scope : Scope, scope.Opens ∧ Market.Steps input.now scope e.market (e.step input).market := by
  obtain ⟨scope, hfor, hadv⟩ := h.apply input.command input.now (.withCapacity input.capacity)
  obtain ⟨maker, r, i, price, size, expiresAt, hcommand, -⟩ := hprobes
  rw [hcommand] at hfor
  refine ⟨hadv.sane, scope, ?_, hadv.steps⟩
  rcases hfor with rfl | ⟨q, o, rfl, -⟩
  · trivial
  · trivial

/-- A quote changes what a leg shows only if it is admitted on that leg and finds it a best
    quote. -/
theorem Sane.shown_of_submitQuote {maker r₀ i₀ price size expiresAt : _} (h : e.Sane)
    (hcommand : input.command = .submitQuote maker r₀ i₀ price size expiresAt) (r : ReqIdx) (i : Nat) :
    ((e.step input).ledger.shown r i).map Prod.snd = (e.ledger.shown r i).map Prod.snd ∧
      ((e.step input).ledger.shown r i = e.ledger.shown r i ∨
        (r₀, i₀) = (r, i) ∧ (e.answer input).1 = .ok () ∧ ∃ leg best,
          (e.step input).ledger.legOf r i = some leg ∧
          (e.step input).ledger.bestOnLeg leg input.now = .ok best) := by
  have hn : (e.normalisedFor input).Sane := (h.normalised input.command input.now).sane
  have hanswer : e.answer input = (e.normalisedFor input).submitQuote maker r₀ i₀ price size expiresAt
      input.now (.withCapacity input.capacity) := by
    rw [Engine.answer, Engine.apply, normalisedFor, hcommand]
    rfl
  obtain ⟨scope, -, hadv⟩ := hn.advances (.submitQuote maker r₀ i₀ price size expiresAt) input.now
    (.withCapacity input.capacity)
  have hkeeps := Ledger.keepsLegs_of_steps hadv.steps
  rw [Engine.perform] at hkeeps
  rw [← h.shown_normalisedFor input, Engine.step, hanswer]
  rcases hn.submitQuote_publishes with ⟨hpublished, -, -⟩ |
    ⟨w, w', hpublished, -, -, hpub, hledger, -, hok⟩
  · rw [Ledger.shown_eq (hkeeps r) (hpublished r)]
    exact ⟨rfl, .inl rfl⟩
  · rw [hledger] at hkeeps ⊢
    have hbefore : w.1.shown r i = (e.normalisedFor input).ledger.shown r i :=
      Ledger.shown_eq (fun a ha => hpub.market ▸ hkeeps r a ha) (hpublished r) i
    rw [← hbefore]
    cases hpub with
    | silent hw =>
        rw [hw]
        exact ⟨rfl, .inl rfl⟩
    | @told leg best hleg hbest hnew hw =>
        have hafter := Ledger.legOf_modifyLeg (l := w.1) (r := r₀) (i := i₀)
          (f := fun leg => { leg with published := some best.price }) r i
        rw [hw]
        by_cases heq : (r₀, i₀) = (r, i)
        · obtain ⟨rfl, rfl⟩ := Prod.mk.inj heq
          rw [if_pos rfl, hleg, Option.map_some] at hafter
          have hquotes : (w.1.modifyLeg r₀ i₀ fun leg =>
              { leg with published := some best.price }).quotes = w.1.quotes := rfl
          refine ⟨?_, .inr ⟨rfl, hok, { leg with published := some best.price }, best, hafter,
            (Ledger.bestOnLeg_published hquotes).trans hbest⟩⟩
          rw [Ledger.shown, Ledger.shown, hafter, hleg]
          rfl
        · rw [if_neg heq] at hafter
          rw [Ledger.shown, Ledger.shown, hafter]
          exact ⟨rfl, .inl rfl⟩

/-- Two legs with one limit find one best quote. -/
theorem bestOnLeg_eq {l l' : Ledger} {own : Prop} {x x' : Leg} (h : Ledger.Alike a l l')
    (hx : Leg.Alike own x x') (hlimit : x.limit = x'.limit) (now : Nat) :
    l.bestOnLeg x now = l'.bestOnLeg x' now := by
  obtain ⟨contract, side, size, limit, quotesHead, quoteCount, published⟩ := x
  obtain ⟨contract', side', size', limit', quotesHead', quoteCount', published'⟩ := x'
  obtain ⟨hcontract, hside, hsize, hhead, hcount, -⟩ := hx
  simp only at hcontract hside hsize hhead hcount hlimit
  subst hcontract hside hsize hhead hcount hlimit
  exact h.bestOnLeg _ now

/-- What a leg that is not of `r` shows after a quote is told by what it showed and by what
    everyone sees. -/
theorem Alike.shown_step (h : Alike a (e.step input) (e'.step input)) (hs : e.Sane) (hs' : e'.Sane)
    (hprobes : Probes a input.command) (hanswer : (e.answer input).1 = (e'.answer input).1) {i : Nat}
    (hsame : e.ledger.shown r i = e'.ledger.shown r i) :
    (e.step input).ledger.shown r i = (e'.step input).ledger.shown r i := by
  obtain ⟨maker, r₀, i₀, price, size, expiresAt, hcommand, -⟩ := hprobes
  obtain ⟨hlimit, hstep⟩ := hs.shown_of_submitQuote hcommand r i
  obtain ⟨hlimit', hstep'⟩ := hs'.shown_of_submitQuote hcommand r i
  have hlimits : ((e.step input).ledger.shown r i).map Prod.snd =
      ((e'.step input).ledger.shown r i).map Prod.snd := by rw [hlimit, hlimit', hsame]
  rcases h.ledger.legOf r i with ⟨hx, hx'⟩ | ⟨y, x, x', hy, hx, hx', halike⟩
  · rw [Ledger.shown, Ledger.shown, hx, hx']
  rw [Ledger.shown, Ledger.shown, hx, hx', Option.map_some, Option.map_some, Option.map_some,
    Option.map_some, Option.some.injEq] at hlimits
  have hlimits : x.limit = x'.limit := hlimits
  have hbest := bestOnLeg_eq h.ledger halike hlimits input.now
  -- once either finds a best quote, both have published it
  have hpublished : ∀ best, (r₀, i₀) = (r, i) → (e.answer input).1 = .ok () →
      (e.step input).ledger.bestOnLeg x input.now = .ok best → x.published = x'.published := by
    rintro best htarget hok hfound
    obtain ⟨rfl, rfl⟩ := Prod.mk.inj htarget
    obtain ⟨z, hz, hleg⟩ := Option.bind_eq_some_iff.mp hx
    obtain ⟨z', hz', hleg'⟩ := Option.bind_eq_some_iff.mp hx'
    rw [hs.published_of_accepted hcommand hok hz hleg hfound,
      hs'.published_of_accepted hcommand (hanswer ▸ hok) hz' hleg' (hbest ▸ hfound)]
  rw [Ledger.shown, Ledger.shown, hx, hx', Option.map_some, Option.map_some, hlimits]
  rcases hstep with hkept | ⟨htarget, hok, leg, best, hleg, hfound⟩
  · rcases hstep' with hkept' | ⟨htarget, hok, leg, best, hleg, hfound⟩
    · rw [← hkept, ← hkept', Ledger.shown, Ledger.shown, hx, hx', Option.map_some, Option.map_some,
        hlimits] at hsame
      exact hsame
    · obtain rfl := Option.some.inj (hx'.symm.trans hleg)
      rw [hpublished best htarget (hanswer ▸ hok) (hbest ▸ hfound)]
  · obtain rfl := Option.some.inj (hx.symm.trans hleg)
    rw [hpublished best htarget hok hfound]

/-- What everyone hears of an input: its answer, and the events but the feed. -/
def heard (e : Engine) (input : Input) : Except EngineError Unit × List Event :=
  ((e.answer input).1, (e.emits input).filter fun event => event.publishes.isNone)

/-- One quote. -/
theorem unpriced_step (hs : e.Sane) (hs' : e'.Sane) (hr : e.ledger.request r = some y)
    (hopened : y.state = .opened) (hsame : e.unpriced r = e'.unpriced r)
    (hprobes : Probes y.requester input.command) :
    e.heard input = e'.heard input ∧ (e.step input).unpriced r = (e'.step input).unpriced r ∧
      ∃ z, (e.step input).ledger.request r = some z ∧ z.state = .opened ∧ z.requester = y.requester := by
  obtain ⟨hconfig, hledger, harrival⟩ := (Engine.mk.injEq ..).mp hsame
  obtain ⟨y', hr'⟩ : ∃ y', e'.ledger.request r = some y' := by
    have hrecord := congrArg (fun l : Ledger => l.request r) hledger
    rw [Ledger.request_unpriced, Ledger.request_unpriced, hr, Option.map_some, eq_comm,
      Option.map_eq_some_iff] at hrecord
    exact hrecord.imp fun _ h => h.1
  have hveiled := (Ledger.unpriced_eq_iff hr hr').mp hledger
  have halike : Alike y.requester e e' :=
    ⟨hconfig, hveiled.alike hs.healthy hr hr' hopened, harrival⟩
  have helsewhere := hveiled.elsewhere hs.healthy hr hopened
  have hother : e.consults y.requester input.command ≠ true := by
    obtain ⟨maker, r₀, i, price, size, expiresAt, hcommand, hne⟩ := hprobes
    simp [hcommand, consults, hne]
  have hinput : AlikeInput y.requester (e, input) (e', input) :=
    ⟨.same _, rfl, rfl, fun hconsults => absurd hconsults hother⟩
  have hanswers := halike.answer hs hs' hinput
  have hanswer : (e.answer input).1 = (e'.answer input).1 := hanswers.answer.eq hother
  have hevents : (e.emits input).filter (fun event => event.publishes.isNone) =
      (e'.emits input).filter fun event => event.publishes.isNone := by
    have hfeed : ∀ events : List Event, (events.filter fun event =>
        !e.ledger.confidential y.requester event).filter (fun event => event.publishes.isNone) =
          events.filter fun event => event.publishes.isNone := by
      intro events
      rw [List.filter_filter]
      refine List.filter_congr fun event _ => ?_
      cases event <;> rfl
    rw [← hfeed (e.emits input), ← hfeed (e'.emits input)]
    exact congrArg _ hanswers.events
  obtain ⟨hs₁, scope, hopens, hsteps⟩ := hs.opens_of_probes hprobes
  obtain ⟨hs₁', scope', hopens', hsteps'⟩ := hs'.opens_of_probes hprobes
  have hauction := hsteps.auction_of_opens hopens (Ledger.market_auctions hr)
  obtain ⟨z, hz, hsamez⟩ := Ledger.request_of_market hauction
  obtain ⟨z', hz', -⟩ := Ledger.request_of_market
    (hsteps'.auction_of_opens hopens' (Ledger.market_auctions hr'))
  have hrequester : z.requester = y.requester := congrArg Auction.requester hsamez
  have hstep : Alike y.requester (e.step input) (e'.step input) := hanswers.engine
  have hafter : Ledger.Elsewhere r y.requester (e.step input).ledger (e'.step input).ledger := by
    refine ⟨fun r' hne i => hstep.shown_step hs hs' hprobes hanswer (helsewhere.shown r' hne i), ?_, ?_⟩
    · have hcommitted := hsteps.committed_of_opens hopens y.requester
      have hcommitted' := hsteps'.committed_of_opens hopens' y.requester
      exact hcommitted.trans (helsewhere.committed.trans hcommitted'.symm)
    · intro c k k' r' hk hk' hcommitted
      obtain ⟨v, hv, rfl⟩ := Ledger.reservation_of_market hk
      obtain ⟨v', hv', rfl⟩ := Ledger.reservation_of_market hk'
      have hlinks : v.links = v'.links := by
        have hrel := hstep.ledger.reservation c
        rw [hv, hv'] at hrel
        cases hrel with
        | some hrel => exact hrel.links
      have hcommitted' : v'.toClaim.status = .committed r' :=
        (congrArg ClaimLinks.status hlinks.symm).trans hcommitted
      exact helsewhere.claims c _ _ r' (hsteps.claim_of_committed hopens hk hcommitted)
        (hsteps'.claim_of_committed hopens' hk' hcommitted') hcommitted
  have hfinal := hstep.ledger.veiled hafter hs₁.healthy hs₁'.healthy hz hz' hrequester
    (hs₁.sound.trans hs₁'.sound.symm)
  refine ⟨Prod.ext hanswer hevents, ?_, z, hz, (congrArg Auction.state hsamez).trans hopened, hrequester⟩
  rw [unpriced, unpriced, Engine.mk.injEq]
  exact ⟨hstep.config, (Ledger.unpriced_eq_iff hz hz').mpr hfinal, hstep.nextArrival⟩

-- ============================================================================
-- Runs
-- ============================================================================

/-- The limit price is not leaked: of two engines that differ in nothing but the limits of
    an open request, and in what follows from them, makers' quotes learn nothing. -/
theorem limits_unleaked {inputs : List Input} (h : Reachable config e) (h' : Reachable config e')
    (hr : e.ledger.request r = some y) (hopened : y.state = .opened) (hsame : e.unpriced r = e'.unpriced r)
    (hprobes : ∀ input ∈ inputs, Probes y.requester input.command) :
    (e.trace inputs).map (fun x => x.1.heard x.2) = (e'.trace inputs).map (fun x => x.1.heard x.2) ∧
      (e.run inputs).unpriced r = (e'.run inputs).unpriced r := by
  induction inputs generalizing e e' y with
  | nil => exact ⟨rfl, hsame⟩
  | cons input inputs ih =>
      obtain ⟨hheard, hstep, z, hz, hopened', hrequester⟩ := unpriced_step (sane_of_reachable h)
        (sane_of_reachable h') hr hopened hsame (hprobes input List.mem_cons_self)
      obtain ⟨hrest, hrun⟩ := ih (h.step input) (h'.step input) hz hopened' hstep fun input' hinput' =>
        hrequester ▸ hprobes input' (List.mem_cons_of_mem _ hinput')
      refine ⟨?_, hrun⟩
      rw [Engine.trace, Engine.trace, List.map_cons, List.map_cons, hheard, hrest]

/-- A venue with one open request, whose requester is credited `free` and pays up to
    `limit`. -/
def probed (free limit : Nat) : Engine :=
  Engine.run ⟨Config.busy, Ledger.new Config.busy, 0⟩
    [⟨.creditAccount 0 free, 0, 8⟩, ⟨.creditAccount 1 2000000, 0, 8⟩, ⟨.creditAccount 2 2000000, 0, 8⟩,
      ⟨.registerContract 0 1000, 0, 8⟩, ⟨.submitRequest 0 50 [⟨0, .yes, 2, limit⟩], 1, 8⟩]

/-- Two makers undercut each other; one quote is refused, and the last one comes too late. -/
def probes : List Input :=
  [⟨.submitQuote 1 ⟨0, 0⟩ 0 650000 2 40, 2, 8⟩, ⟨.submitQuote 2 ⟨0, 0⟩ 0 610000 2 45, 3, 8⟩,
    ⟨.submitQuote 2 ⟨0, 0⟩ 0 640000 2 45, 3, 8⟩, ⟨.submitQuote 1 ⟨0, 0⟩ 0 605000 2 42, 4, 8⟩,
    ⟨.submitQuote 1 ⟨0, 0⟩ 0 605000 2 80, 60, 8⟩]

/-- The first quote is beyond one of the two limits; nobody but the requester hears of it. -/
theorem limits_unleaked_probed :
    (probed 2000000 900000).emitted probes ≠ (probed 1300000 620000).emitted probes ∧
      ((probed 2000000 900000).trace probes).map (fun x => x.1.heard x.2) =
        ((probed 1300000 620000).trace probes).map (fun x => x.1.heard x.2) ∧
      ((probed 2000000 900000).run probes).unpriced ⟨0, 0⟩ =
        ((probed 1300000 620000).run probes).unpriced ⟨0, 0⟩ := by
  have hnew : Reachable Config.busy ⟨Config.busy, Ledger.new Config.busy, 0⟩ := .new rfl
  have hstored : (probed 2000000 900000).ledger.request ⟨0, 0⟩ =
      some ⟨0, 50, .opened, [⟨0, .yes, 2, 900000, none, 0, none⟩], some ⟨0, 0⟩, none⟩ := by
    decide +kernel
  refine ⟨by decide +kernel, limits_unleaked (hnew.run _) (hnew.run _) hstored rfl (by decide +kernel) ?_⟩
  intro input hinput
  simp only [probes, List.mem_cons, List.not_mem_nil, or_false] at hinput
  rcases hinput with rfl | rfl | rfl | rfl | rfl
  all_goals exact ⟨_, _, _, _, _, _, rfl, by decide⟩

end Engine

end RfqSettlement
