/-
  RfqSettlement.Core.QuoteChain

  The quote chains of requests.

  `Book.Chained` says that on every leg of a request the chain visits, once each,
  exactly the stored quotes on that leg, that `quoteCount` is their number and that
  it stays within the venue's limit.  It holds until the request's settlement is
  answered: that is when the winners' slots are freed with the links left as they
  are.  While a quote is being opened or retired it is stored and on no chain;
  `loose` names it.
-/

import RfqSettlement.Lib.Path
import RfqSettlement.Core.MarketView

namespace RfqSettlement

/-- Whether a request's settlement has been answered. -/
def RequestState.isAnswered : RequestState → Bool
  | .escrowed | .settlementFailed => true
  | _ => false

namespace Book

/-- The link a quote carries. -/
def nextOf (b : Book) (q : QuoteIdx) : Option Link := (b.quotes q).map Quote.nextOnLeg

/-- The chain of leg `i` of `r` visits exactly `qs`. -/
structure LegChain (loose : Option QuoteIdx) (b : Book) (r : ReqIdx) (i : Nat) (leg : Leg)
    (qs : List QuoteIdx) : Prop where
  path : Intrusive.Path Handle.index b.nextOf leg.quotesHead qs none
  nodup : qs.Nodup
  count : leg.quoteCount = qs.length
  mem : ∀ q, q ∈ qs ↔ some q ≠ loose ∧ ∃ x, b.quotes q = some x ∧ x.request = r ∧ x.leg = i

def Chained (max : Nat) (loose : Option QuoteIdx) (b : Book) : Prop :=
  ∀ r x, b.requests r = some x → x.state.isAnswered = false → ∀ i leg, x.legs[i]? = some leg →
    ∃ qs, LegChain loose b r i leg qs ∧ qs.length ≤ max

variable {b b' : Book} {max : Nat} {loose loose' : Option QuoteIdx} {q : QuoteIdx} {r : ReqIdx}
  {i : Nat} {leg leg' : Leg} {qs : List QuoteIdx} {x : Quote}

/-- The legs of an open request. -/
theorem Chained.opened (h : b.Chained max loose) {x : Request} (hx : b.requests r = some x)
    (hopened : x.state = .opened) (hleg : x.legs[i]? = some leg) :
    ∃ qs, LegChain loose b r i leg qs ∧ qs.length ≤ max :=
  h r x hx (by rw [hopened]; rfl) i leg hleg

theorem LegChain.stored (h : LegChain loose b r i leg qs) (hq : q ∈ qs) :
    ∃ x, b.quotes q = some x ∧ x.request = r ∧ x.leg = i :=
  ((h.mem q).mp hq).2

/-- Two options that agree under `key` agree on what `key` decides. -/
theorem exists_iff_of_map_eq {α β : Type} {o o' : Option α} {key : α → β}
    (h : o'.map key = o.map key) (P : β → Prop) :
    (∃ x, o' = some x ∧ P (key x)) ↔ ∃ x, o = some x ∧ P (key x) := by
  cases o with
  | none =>
      obtain rfl : o' = none := by simpa using h
      rfl
  | some x =>
      obtain ⟨x', rfl, hx'⟩ := Option.map_eq_some_iff.mp (h.trans (Option.map_some ..))
      simp [hx']

/-- What of a quote a chain depends on. -/
def chainKey (x : Quote) : ReqIdx × Nat × Link := (x.request, x.leg, x.nextOnLeg)

/-- A chain depends on nothing else of the quotes, and on the head and the count of
    its leg. -/
theorem LegChain.congr (h : LegChain loose b r i leg qs)
    (hquotes : ∀ q, (b'.quotes q).map chainKey = (b.quotes q).map chainKey)
    (hhead : leg'.quotesHead = leg.quotesHead) (hcount : leg'.quoteCount = leg.quoteCount) :
    LegChain loose b' r i leg' qs where
  path := by
    rw [hhead]
    refine h.path.congr fun q _ => ?_
    have := congrArg (Option.map fun x => x.2.2) (hquotes q)
    simpa only [nextOf, Option.map_map, Function.comp_def, chainKey] using this
  nodup := h.nodup
  count := hcount.trans h.count
  mem q := by
    rw [h.mem q]
    exact and_congr_right fun _ =>
      (exists_iff_of_map_eq (hquotes q) fun key => key.1 = r ∧ key.2.1 = i).symm

/-- Requests as the chains see them: whether they are answered, and the heads and counts
    of their legs. -/
def chainLegs (x : Request) : Option (List (Link × Nat)) :=
  if x.state.isAnswered = true then none
  else some (x.legs.map fun leg => (leg.quotesHead, leg.quoteCount))

theorem Chained.congr (h : b.Chained max loose)
    (hquotes : ∀ q, (b'.quotes q).map chainKey = (b.quotes q).map chainKey)
    (hrequests : ∀ r x', b'.requests r = some x' → x'.state.isAnswered = false →
      ∃ x, b.requests r = some x ∧ chainLegs x = chainLegs x') :
    b'.Chained max loose := by
  intro r x' hx' hopen' i leg' hleg'
  obtain ⟨x, hx, hkey⟩ := hrequests r x' hx' hopen'
  simp only [chainLegs, hopen', Bool.false_eq_true, if_false] at hkey
  split at hkey
  next => cases hkey
  next hopen =>
    rw [Option.some.injEq] at hkey
    have hi := congrArg (·[i]?) hkey
    simp only [List.getElem?_map, hleg', Option.map_some, Option.map_eq_some_iff] at hi
    obtain ⟨leg, hleg, heq⟩ := hi
    rw [Prod.mk.injEq] at heq
    obtain ⟨qs, hchain, hlen⟩ := h r x hx (by simpa using hopen) i leg hleg
    exact ⟨qs, hchain.congr hquotes heq.1.symm heq.2.symm, hlen⟩

theorem Chained.of_same (h : b.Chained max loose) (hquotes : b'.quotes = b.quotes)
    (hrequests : b'.requests = b.requests) : b'.Chained max loose :=
  h.congr (fun q => by rw [hquotes]) fun _ x hx _ => ⟨x, hrequests ▸ hx, rfl⟩

/-- Writing claims, states and totals. -/
theorem Chained.setOwnerClaim {owner : ResOwner} {c : Option ResIdx} (h : b.Chained max loose) :
    (b.setOwnerClaim owner c).Chained max loose := by
  cases owner with
  | quote q =>
      refine h.congr (fun q' => ?_) fun r x hx _ => ⟨x, hx, rfl⟩
      simp only [Book.setOwnerClaim, modifyQuote, Function.update_apply]
      split
      next heq =>
        rw [heq, Option.map_map]
        rfl
      next => rfl
  | request r =>
      refine h.congr (fun q' => rfl) fun r' x' hx' _ => ?_
      simp only [Book.setOwnerClaim, modifyRequest, Function.update_apply] at hx'
      split at hx'
      next heq =>
        obtain ⟨x, hx, rfl⟩ := Option.map_eq_some_iff.mp hx'
        exact ⟨x, heq ▸ hx, rfl⟩
      next => exact ⟨x', hx', rfl⟩

theorem Chained.free {claim : ResIdx} {k : Claim} (h : b.Chained max loose) :
    (b.free claim k).Chained max loose :=
  (Chained.setOwnerClaim (b := b.modifyTotals k.account fun t => { t with reserved := t.reserved - k.amount })
    (h.of_same rfl rfl)).of_same rfl rfl

theorem Chained.discharge {claim : ResIdx} {k : Claim} (h : b.Chained max loose) :
    (b.discharge claim k).Chained max loose :=
  (Chained.setOwnerClaim (b := b.modifyTotals k.account fun t => { t with committed := t.committed - k.amount })
    (h.of_same rfl rfl)).of_same rfl rfl

theorem Chained.reserve {claim : ResIdx} {k : Claim} (h : b.Chained max loose) :
    (b.reserve claim k).Chained max loose :=
  (Chained.setOwnerClaim (b := b.modifyTotals k.account fun t => { t with reserved := t.reserved + k.amount })
    (h.of_same rfl rfl)).of_same rfl rfl

theorem Chained.expired {account now : Nat} (h : b.Chained max loose)
    (hb : Expired account now b b') : b'.Chained max loose := by
  induction hb with
  | refl => exact h
  | step hk ha hs he rest ih => exact ih h.free

theorem Chained.discharged {gone : List (ResIdx × Claim)} (h : b.Chained max loose)
    (hb : Discharged r b gone b') : b'.Chained max loose := by
  induction hb with
  | nil => exact h
  | cons hk hs _ _ rest ih => exact ih h.discharge

theorem Chained.modifyQuote {f : Quote → Quote} (h : b.Chained max loose)
    (hf : ∀ x, chainKey (f x) = chainKey x) : (b.modifyQuote q f).Chained max loose := by
  refine h.congr (fun q' => ?_) fun r x hx _ => ⟨x, hx, rfl⟩
  simp only [Book.modifyQuote, Function.update_apply]
  split
  next heq => simp [heq, Function.comp_def, hf]
  next => rfl

theorem Chained.modifyRequest {f : Request → Request} (h : b.Chained max loose)
    (hf : ∀ x, b.requests r = some x → (f x).state.isAnswered = false →
      chainLegs x = chainLegs (f x)) :
    (b.modifyRequest r f).Chained max loose := by
  refine h.congr (fun q' => rfl) fun r' x' hx' hopened => ?_
  simp only [Book.modifyRequest, Function.update_apply] at hx'
  split at hx'
  next heq =>
    obtain ⟨x, hx, rfl⟩ := Option.map_eq_some_iff.mp hx'
    exact ⟨x, heq ▸ hx, hf x hx hopened⟩
  next => exact ⟨x', hx', rfl⟩

/-- An open request keeps its chains when it moves on. -/
theorem Chained.setState {x : Request} {st : RequestState} (h : b.Chained max loose)
    (hx : b.requests r = some x) (hopened : x.state = .opened) (hst : st.isAnswered = false) :
    (b.modifyRequest r fun x => x.setState st).Chained max loose := by
  refine h.modifyRequest fun x' hx' _ => ?_
  obtain rfl := Option.some.inj (hx.symm.trans hx')
  have hopen : x.state.isAnswered = false := by rw [hopened]; rfl
  simp [chainLegs, Request.setState, hopen, hst]

/-- The chains of an answered request are not looked at any more. -/
theorem Chained.answer {st : RequestState} (h : b.Chained max loose) (hst : st.isAnswered = true) :
    (b.modifyRequest r fun x => x.setState st).Chained max loose := by
  refine h.modifyRequest fun x _ hopen => ?_
  rw [show (x.setState st).state = st from rfl, hst] at hopen
  cases hopen

/-- A request opens with empty chains, if no stored quote names it. -/
theorem Chained.openRequest {y : Request} (h : b.Chained max loose)
    (hfresh : ∀ q x, b.quotes q = some x → x.request ≠ r)
    (hlegs : ∀ leg ∈ y.legs, leg.quotesHead = none ∧ leg.quoteCount = 0) :
    (b.setRequest r (some y)).Chained max loose := by
  intro r' x' hx' hopened i leg hleg
  simp only [setRequest, Function.update_apply] at hx'
  split at hx'
  next heq =>
    rw [Option.some.injEq] at hx'
    subst hx' heq
    obtain ⟨hhead, hcount⟩ := hlegs leg (List.mem_of_getElem? hleg)
    refine ⟨[], ⟨hhead, by simp, hcount, fun q => ?_⟩, by simp⟩
    simp only [List.not_mem_nil, false_iff, not_and, not_exists]
    intro _ x hx hr
    exact absurd hr (hfresh q x hx)
  next =>
    obtain ⟨qs, hchain, hlen⟩ := h r' x' hx' hopened i leg hleg
    exact ⟨qs, hchain.congr (fun _ => rfl) rfl rfl, hlen⟩

/-- A stored quote on no chain may go, or come. -/
theorem Chained.setQuote {new : Option Quote} (h : b.Chained max loose)
    (hloose : ∀ q', q' ≠ q → (some q' ≠ loose ↔ some q' ≠ loose'))
    (hold : ∀ x y, b.quotes q = some x → some q ≠ loose → b.requests x.request = some y →
      y.state.isAnswered = true)
    (hnew : ∀ x y, new = some x → some q ≠ loose' → b.requests x.request = some y →
      y.state.isAnswered = true) :
    (b.setQuote q new).Chained max loose' := by
  intro r y hy hopened i leg hleg
  obtain ⟨qs, hchain, hlen⟩ := h r y hy hopened i leg hleg
  have hnot : q ∉ qs := by
    intro hmem
    obtain ⟨hl, x, hx, rfl, -⟩ := (hchain.mem q).mp hmem
    exact absurd (hold x y hx hl hy) (by simp [hopened])
  refine ⟨qs, ⟨hchain.path.congr ?_, hchain.nodup, hchain.count, ?_⟩, hlen⟩
  · intro q' hq'
    have hne : q' ≠ q := fun heq => hnot (heq ▸ hq')
    simp only [nextOf, Book.setQuote, Function.update_apply, if_neg hne]
  · intro q'
    by_cases heq : q' = q
    · subst heq
      simp only [hnot, false_iff, not_and, not_exists, Book.setQuote, Function.update_self]
      rintro hl x hx rfl
      exact absurd (hnew x y hx hl hy) (by simp [hopened])
    · rw [hchain.mem q', hloose q' heq]
      simp only [Book.setQuote, Function.update_apply, if_neg heq]

/-- One chain edited: the others only have to be left alone. -/
theorem Chained.edit (h : b.Chained max loose)
    (hstored : ∀ q, (b'.quotes q).map (fun x => (x.request, x.leg)) =
      (b.quotes q).map fun x => (x.request, x.leg))
    (hnext : ∀ q x, b.quotes q = some x → ¬ (x.request = r ∧ x.leg = i) → b'.nextOf q = b.nextOf q)
    (hloose : ∀ q x, b.quotes q = some x → ¬ (x.request = r ∧ x.leg = i) →
      (some q ≠ loose' ↔ some q ≠ loose))
    (hlegs : ∀ r' y' i' leg, b'.requests r' = some y' → y'.state.isAnswered = false →
      y'.legs[i']? = some leg → ¬ (r' = r ∧ i' = i) →
        ∃ y, b.requests r' = some y ∧ y.state.isAnswered = false ∧ y.legs[i']? = some leg)
    (hedited : ∀ y' leg, b'.requests r = some y' → y'.legs[i]? = some leg →
      ∃ qs, LegChain loose' b' r i leg qs ∧ qs.length ≤ max) :
    b'.Chained max loose' := by
  intro r' y' hy' hopened i' leg hleg
  by_cases heq : r' = r ∧ i' = i
  · obtain ⟨rfl, rfl⟩ := heq
    exact hedited y' leg hy' hleg
  obtain ⟨y, hy, hopened', hleg'⟩ := hlegs r' y' i' leg hy' hopened hleg heq
  obtain ⟨qs, hchain, hlen⟩ := h r' y hy hopened' i' leg hleg'
  have hother : ∀ q x, b.quotes q = some x → x.request = r' → x.leg = i' →
      ¬ (x.request = r ∧ x.leg = i) := by
    rintro q x - rfl rfl
    exact heq
  refine ⟨qs, ⟨hchain.path.congr ?_, hchain.nodup, hchain.count, ?_⟩, hlen⟩
  · intro q hq
    obtain ⟨x, hx, hr, hi⟩ := hchain.stored hq
    exact hnext q x hx (hother q x hx hr hi)
  · intro q
    have hiff := exists_iff_of_map_eq (hstored q) fun key => key.1 = r' ∧ key.2 = i'
    rw [hchain.mem q]
    constructor
    · rintro ⟨hl, x, hx, hr, hi⟩
      exact ⟨(hloose q x hx (hother q x hx hr hi)).mpr hl, hiff.mpr ⟨x, hx, hr, hi⟩⟩
    · rintro ⟨hl, hx⟩
      obtain ⟨x, hx', hr, hi⟩ := hiff.mp hx
      exact ⟨(hloose q x hx' (hother q x hx' hr hi)).mp hl, x, hx', hr, hi⟩

end Book

end RfqSettlement
