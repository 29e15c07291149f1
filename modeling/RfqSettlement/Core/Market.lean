/-
  RfqSettlement.Core.Market

  What the engine is for, stated on its own: auctions, the offers standing on
  their legs, the claims behind both, and the steps by which these move.

  A `Market` has no links, no slots and no caches.  `Market.Step` lists every
  way it may change at an instant; which of them a command may take is its
  `Scope`.  The invariants of the engine are proved here, one step at a time,
  and reach the engine through `Ledger.market`, which reads a market off a
  ledger.
-/

import RfqSettlement.Core.Command
import RfqSettlement.Core.Balance

namespace RfqSettlement

-- ============================================================================
-- Auctions and offers
-- ============================================================================

/-- A request, without the claim and the lists the ledger threads through it. -/
structure Auction where
  requester : Nat
  deadline : Nat
  state : RequestState
  legs : List LegSpec
deriving DecidableEq, Repr

/-- A quote, likewise. -/
structure Offer where
  maker : Nat
  request : ReqIdx
  leg : Nat
  price : Nat
  size : Nat
  expiresAt : Nat
  state : QuoteState
deriving DecidableEq, Repr

namespace Auction

/-- The most the requester can be asked to pay. -/
def total (a : Auction) : Nat := (a.legs.map fun s => s.size * s.limit).sum

/-- An auction whose amounts can all be represented. -/
structure Fair (a : Auction) : Prop where
  legs : a.legs ≠ []
  count : a.legs.length ≤ MAX_LEGS
  size : ∀ s ∈ a.legs, 0 < s.size
  limit : ∀ s ∈ a.legs, s.limit ≤ UNIT
  fits : a.total ≤ u64Max

def withState (a : Auction) (state : RequestState) : Auction := { a with state }

def IsSettling (a : Auction) : Prop := ∃ nonce deadline, a.state = .settling nonce deadline

@[simp] theorem legs_withState {a : Auction} {st : RequestState} : (a.withState st).legs = a.legs :=
  rfl
@[simp] theorem state_withState {a : Auction} {st : RequestState} : (a.withState st).state = st :=
  rfl

theorem Fair.withState {a : Auction} {st : RequestState} (h : a.Fair) : (a.withState st).Fair :=
  ⟨h.legs, h.count, h.size, h.limit, h.fits⟩

end Auction

def Offer.consume (o : Offer) : Offer := { o with state := .consumed }

-- ============================================================================
-- The market
-- ============================================================================

structure Market where
  totals : Nat → Option Totals
  claims : ResIdx → Option Claim
  sum : (Claim → Nat) → Nat
  auctions : ReqIdx → Option Auction
  offers : QuoteIdx → Option Offer

namespace Market

def modifyTotals (m : Market) (account : Nat) (f : Totals → Totals) : Market :=
  { m with totals := Function.update m.totals account ((m.totals account).map f) }

def setAuction (m : Market) (request : ReqIdx) (a : Auction) : Market :=
  { m with auctions := Function.update m.auctions request (some a) }

def setOffer (m : Market) (quote : QuoteIdx) (o : Option Offer) : Market :=
  { m with offers := Function.update m.offers quote o }

def dropClaim (m : Market) (claim : ResIdx) (k : Claim) : Market :=
  { m with claims := Function.update m.claims claim none, sum := fun f => m.sum f - f k }

def putClaim (m : Market) (claim : ResIdx) (k : Claim) : Market :=
  { m with claims := Function.update m.claims claim (some k), sum := fun f => m.sum f + f k }

/-- A reserved claim goes away. -/
def free (m : Market) (claim : ResIdx) (k : Claim) : Market :=
  (m.modifyTotals k.account fun t => { t with reserved := t.reserved - k.amount }).dropClaim claim k

/-- A committed claim goes away. -/
def discharge (m : Market) (claim : ResIdx) (k : Claim) : Market :=
  (m.modifyTotals k.account fun t => { t with committed := t.committed - k.amount }).dropClaim
    claim k

/-- A reserved claim is cut down to `keep` and committed to `request`. -/
def commit (m : Market) (claim : ResIdx) (k : Claim) (request : ReqIdx) (keep : Nat) : Market :=
  ((m.modifyTotals k.account fun t =>
    { t with reserved := t.reserved - k.amount, committed := t.committed + keep }).dropClaim
      claim k).putClaim claim (k.committedAs request keep)

/-- A new reserved claim. -/
def reserve (m : Market) (claim : ResIdx) (k : Claim) : Market :=
  (m.modifyTotals k.account fun t => { t with reserved := t.reserved + k.amount }).putClaim claim k

/-- The leg an offer is for. -/
def legOf (m : Market) (o : Offer) : Option LegSpec :=
  (m.auctions o.request).bind fun a => a.legs[o.leg]?

/-- What `account` has committed to `request`. -/
def pledged (m : Market) (request : ReqIdx) (account : Nat) : Nat :=
  m.sum (Claim.committedOn request account)

/-- A reserved claim of `owner`, counted in its account's total. -/
structure Reserved (m : Market) (owner : ResOwner) (h : ResIdx) (k : Claim) : Prop where
  claim : m.claims h = some k
  owner : k.owner = owner
  status : ∃ e, k.status = .reserved e
  counted : ∀ t, m.totals k.account = some t → k.amount ≤ t.reserved

/-- The reserved claim an owner holds, if it holds any. -/
def Backing (m : Market) (owner : ResOwner) : Option (ResIdx × Claim) → Prop
  | none => ∀ h k, m.claims h = some k → k.owner ≠ owner
  | some (h, k) => m.Reserved owner h k

/-- The market once a backing claim is let go. -/
def letGo (m : Market) : Option (ResIdx × Claim) → Market
  | none => m
  | some (h, k) => m.free h k

/-- The market once a backing claim is committed at its full amount. -/
def pledge (m : Market) (request : ReqIdx) : Option (ResIdx × Claim) → Market
  | none => m
  | some (h, k) => m.commit h k request k.amount

end Market

-- ============================================================================
-- Steps
-- ============================================================================

/-- What a command is about, and so which steps it may take beyond expiry. -/
inductive Scope where
  | calm
  | crediting (account free : Nat)
  | replacing (quote : QuoteIdx)
  | filling (request : ReqIdx)
  | rejecting (request : ReqIdx)
  | resolving (request : ReqIdx)
deriving DecidableEq, Repr

/-- The request an accept is at work on. -/
def Scope.filled : Scope → Option ReqIdx
  | .filling request => some request
  | _ => none

/-- The commands that may bring a new auction or offer. -/
def Scope.Opens : Scope → Prop
  | .calm | .replacing _ => True
  | _ => False

/-- The offers a command may withdraw. -/
def Scope.Withdraws (quote : QuoteIdx) (o : Offer) : Scope → Prop
  | .replacing quote' => quote = quote'
  | .filling request => o.request = request
  | .rejecting request => o.request = request
  | _ => False

/-- What an account's claims add up to. -/
def Totals.claimed (t : Totals) : Nat := t.reserved + t.committed

/-- Whether `amount` more can be claimed against these totals. -/
structure Totals.Admits (t : Totals) (amount : Nat) : Prop where
  fits : t.reserved + t.committed + amount ≤ u64Max
  covered : t.reserved + t.committed + amount ≤ t.free

namespace Market

/-- One step of the market at the instant `now`. -/
inductive Step (now : Nat) (scope : Scope) : Market → Market → Prop where
  | mirror {m : Market} {account free : Nat} (hscope : scope = .crediting account free) :
      Step now scope m (m.modifyTotals account fun t => { t with free })
  | expire {m : Market} {h : ResIdx} {k : Claim} {e : Nat} (hk : m.claims h = some k)
      (hs : k.status = .reserved e) (he : e ≤ now) : Step now scope m (m.free h k)
  | openAuction {m : Market} {r : ReqIdx} {h : ResIdx} {a : Auction} {t : Totals}
      (hscope : scope.Opens) (hr : m.auctions r = none) (hh : m.claims h = none)
      (hstate : a.state = .opened) (hfair : a.Fair) (ht : m.totals a.requester = some t) (hadm : t.Admits a.total) :
      Step now scope m ((m.setAuction r a).reserve h
        ⟨a.requester, a.total, .request r, .reserved a.deadline⟩)
  | openOffer {m : Market} {q : QuoteIdx} {h : ResIdx} {o : Offer} {a : Auction} {leg : LegSpec}
      {t : Totals} (hscope : scope.Opens) (hq : m.offers q = none) (hh : m.claims h = none)
      (hstate : o.state = .active)
      (ha : m.auctions o.request = some a) (hopened : a.state = .opened)
      (hleg : a.legs[o.leg]? = some leg) (hsize : leg.size ≤ o.size) (hprice : o.price ≤ UNIT)
      (ht : m.totals o.maker = some t) (hadm : t.Admits (leg.size * (UNIT - o.price))) :
      Step now scope m ((m.setOffer q (some o)).reserve h
        ⟨o.maker, leg.size * (UNIT - o.price), .quote q, .reserved o.expiresAt⟩)
  | withdraw {m : Market} {q : QuoteIdx} {o : Offer} {held : Option (ResIdx × Claim)}
      (hscope : scope.Withdraws q o) (ho : m.offers q = some o) (hheld : m.Backing (.quote q) held) :
      Step now scope m ((m.letGo held).setOffer q none)
  | consume {m : Market} {q : QuoteIdx} {o : Offer} {a : Auction} {held : Option (ResIdx × Claim)}
      (hscope : scope = .filling o.request) (ho : m.offers q = some o) (hstate : o.state = .active)
      (ha : m.auctions o.request = some a) (hopened : a.state = .opened)
      (hheld : m.Backing (.quote q) held) :
      Step now scope m ((m.pledge o.request held).setOffer q (some o.consume))
  | settle {m : Market} {r : ReqIdx} {a : Auction} {h : ResIdx} {k : Claim} {keep deadline : Nat}
      (hscope : scope = .filling r) (ha : m.auctions r = some a) (hopened : a.state = .opened)
      (hheld : m.Backing (.request r) (some (h, k))) (hkeep : keep ≤ k.amount) :
      Step now scope m ((m.commit h k r keep).setAuction r
        (a.withState (.settling (Nonce.of r) deadline)))
  | reject {m : Market} {r : ReqIdx} {a : Auction} {held : Option (ResIdx × Claim)}
      (hscope : scope = .rejecting r) (ha : m.auctions r = some a) (hopened : a.state = .opened)
      (hheld : m.Backing (.request r) held) :
      Step now scope m ((m.letGo held).setAuction r (a.withState .rejected))
  | discharge {m : Market} {r : ReqIdx} {h : ResIdx} {k : Claim} (hscope : scope = .resolving r)
      (hk : m.claims h = some k) (hs : k.status = .committed r) :
      Step now scope m (m.discharge h k)
  | resolve {m : Market} {r : ReqIdx} {a : Auction} {st : RequestState}
      (hscope : scope = .resolving r) (ha : m.auctions r = some a) (hsettling : a.IsSettling)
      (hnone : ∀ h k, m.claims h = some k → k.status ≠ .committed r)
      (hst : st = .escrowed ∨ st = .settlementFailed) :
      Step now scope m (m.setAuction r (a.withState st))
  | close {m : Market} {q : QuoteIdx} {o : Offer} (hscope : scope = .resolving o.request)
      (ho : m.offers q = some o) (hstate : o.state = .consumed)
      (hheld : m.Backing (.quote q) none) :
      Step now scope m (m.setOffer q none)

/-- Any number of steps, at one instant and within one command. -/
inductive Steps (now : Nat) (scope : Scope) : Market → Market → Prop where
  | refl (m : Market) : Steps now scope m m
  | tail {m m' m'' : Market} (h : Steps now scope m m') (hstep : Step now scope m' m'') :
      Steps now scope m m''

theorem Steps.one {now : Nat} {scope : Scope} {m m' : Market} (h : Step now scope m m') :
    Steps now scope m m' := .tail (.refl m) h

theorem Steps.trans {now : Nat} {scope : Scope} {m m' m'' : Market} (h : Steps now scope m m')
    (h' : Steps now scope m' m'') : Steps now scope m m'' := by
  induction h' with
  | refl => exact h
  | tail _ hstep ih => exact ih.tail hstep

end Market

end RfqSettlement
