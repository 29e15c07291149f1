/-
  RfqSettlement.Core.QuoteLinks

  Walking, linking and unlinking a leg's quote chain.

  A walk visits exactly the chain `Book.Chained` promises, within the capacity of
  the slab.  Unlinking takes one quote off its chain wherever it stands, linking
  puts one in front, and neither touches anything but links.
-/

import RfqSettlement.Core.Engine
import RfqSettlement.Core.QuoteChain

namespace RfqSettlement

namespace Ledger

open Intrusive (Path)

variable {l l' : Ledger} {q : QuoteIdx} {r : ReqIdx} {i max : Nat} {leg : Leg} {x : Quote}
  {y : Request} {loose : Option QuoteIdx}

-- ============================================================================
-- Walks
-- ============================================================================

theorem quote_eq_of_index_eq {q' : QuoteIdx} (hq : (l.quote q).isSome) (hq' : (l.quote q').isSome)
    (h : q.index = q'.index) : q = q' :=
  Slab.eq_of_index_eq hq hq' h

theorem quoteHandleAt_of_quote (hq : l.quote q = some x) : l.quoteHandleAt q.index = some q :=
  Slab.handleAt_of_get hq

theorem nextOf_eq (hq : l.quote q = some x) : l.book.nextOf q = some x.nextOnLeg := by
  simp [Book.nextOf, book, hq]

theorem quote_of_nextOf {n : Link} (h : l.book.nextOf q = some n) :
    ∃ x, l.quote q = some x ∧ x.nextOnLeg = n :=
  Option.map_eq_some_iff.mp h

/-- The walk visits the nodes of the path. -/
theorem walkFrom_of_path {head : Link} {qs : List QuoteIdx} (fuel : Nat)
    (h : Path Handle.index l.book.nextOf head qs none) (hfuel : qs.length ≤ fuel) :
    (l.walkFrom fuel head).map Prod.fst = qs ∧
      ∀ v ∈ l.walkFrom fuel head, l.quote v.1 = some v.2 := by
  induction qs generalizing fuel head with
  | nil =>
      obtain rfl : head = none := h
      cases fuel <;> simp [walkFrom]
  | cons q qs ih =>
      obtain ⟨rfl, n, hn, hrest⟩ := h
      obtain ⟨x, hx, rfl⟩ := quote_of_nextOf hn
      cases fuel with
      | zero => simp at hfuel
      | succ fuel =>
          obtain ⟨hmap, hall⟩ := ih fuel hrest (by simpa using hfuel)
          have hwalk : l.walkFrom (fuel + 1) (some q.index) =
              (q, x) :: l.walkFrom fuel x.nextOnLeg := by
            rw [walkFrom, quoteHandleAt_of_quote hx]
            simp only [hx]
          rw [hwalk]
          refine ⟨by rw [List.map_cons, hmap], ?_⟩
          intro v hv
          rcases List.mem_cons.mp hv with rfl | hv
          · exact hx
          · exact hall v hv

/-- Distinct stored quotes fit the slab. -/
theorem length_quotes_le {qs : List QuoteIdx} (hnodup : qs.Nodup)
    (hmem : ∀ q ∈ qs, (l.quote q).isSome) : qs.length ≤ l.quotes.capacity := by
  have hinj : (qs.map Handle.index).Nodup := by
    refine (List.nodup_map_iff_inj_on hnodup).mpr fun q hq q' hq' heq => ?_
    exact quote_eq_of_index_eq (hmem q hq) (hmem q' hq') heq
  have hsub : qs.map Handle.index ⊆ List.range l.quotes.capacity := by
    intro j hj
    obtain ⟨q, hq, rfl⟩ := List.mem_map.mp hj
    obtain ⟨x, hx⟩ := Option.isSome_iff_exists.mp (hmem q hq)
    exact List.mem_range.mpr (Slab.length_of_get hx)
  simpa using (List.subperm_of_subset hinj hsub).length_le

theorem legChain_length_le {qs : List QuoteIdx}
    (h : Book.LegChain loose l.book r i leg qs) : qs.length ≤ l.quotes.capacity := by
  refine length_quotes_le h.nodup fun q hq => ?_
  obtain ⟨x, hx, -⟩ := h.stored hq
  exact Option.isSome_iff_exists.mpr ⟨x, hx⟩

/-- A walk of an open leg visits every stored quote on it, and no other. -/
theorem walkLeg_of_chained (hch : l.book.Chained max loose) (hr : l.request r = some y)
    (hopened : y.state = .opened) (hleg : y.leg i = some leg) :
    ∃ qs, Book.LegChain loose l.book r i leg qs ∧ qs.length ≤ max ∧
      (l.walkLeg leg).map Prod.fst = qs ∧ ∀ v ∈ l.walkLeg leg, l.quote v.1 = some v.2 := by
  obtain ⟨qs, hchain, hlen⟩ := hch.opened (book_requests hr) hopened hleg
  exact ⟨qs, hchain, hlen, walkFrom_of_path _ hchain.path (legChain_length_le hchain)⟩

-- ============================================================================
-- Writes that touch links, caches and states only
-- ============================================================================

theorem Intact.modifyQuote {f : Quote → Quote} (h : l.Intact) (hf : ∀ x, (f x).claim = x.claim) :
    (l.modifyQuote q f).Intact where
  wired := ⟨h.wired.reservations, h.wired.requests, h.wired.quotes.modify, h.wired.threads⟩
  balanced := by
    rw [book_modifyQuote]
    exact h.balanced.modifyQuote hf

theorem Intact.modifyRequest {f : Request → Request} (h : l.Intact)
    (hf : ∀ x, (f x).claim = x.claim) (hhead : ∀ x, (f x).committedHead = x.committedHead)
    (hunlinked : ∀ x, (f x).unlinked = f x.unlinked) : (l.modifyRequest r f).Intact where
  wired := by
    refine ⟨h.wired.reservations, h.wired.requests.modify, h.wired.quotes, ?_⟩
    rw [links_modifyRequest hhead]
    exact h.wired.threads
  balanced := by
    rw [book_modifyRequest hunlinked]
    exact h.balanced.modifyRequest hf

theorem kept_modifyQuote {f : Quote → Quote} : Kept l (l.modifyQuote q f) :=
  ⟨rfl, rfl, Slab.length_modify, rfl, rfl, freeHead_modify, rfl⟩

theorem quote_modifyQuote {f : Quote → Quote} (q' : QuoteIdx) :
    (l.modifyQuote q f).quote q' = if q' = q then (l.quote q).map f else l.quote q' :=
  Slab.get_modify

theorem request_modifyRequest {f : Request → Request} (r' : ReqIdx) :
    (l.modifyRequest r f).request r' = if r' = r then (l.request r).map f else l.request r' :=
  Slab.get_modify

/-- `l'` is `l` with quote chains and caches rewritten. -/
structure Touches (l l' : Ledger) : Prop where
  intact : l.Intact → l'.Intact
  kept : Kept l l'
  market : l'.market = l.market
  reservations : l'.reservations = l.reservations
  owners : ∀ owner, l'.ownerClaim owner = l.ownerClaim owner

theorem Touches.refl (l : Ledger) : Touches l l :=
  ⟨id, Kept.refl l, rfl, rfl, fun _ => rfl⟩

theorem Touches.trans {l'' : Ledger} (h : Touches l l') (h' : Touches l' l'') : Touches l l'' where
  intact hl := h'.intact (h.intact hl)
  kept := h.kept.trans h'.kept
  market := h'.market.trans h.market
  reservations := h'.reservations.trans h.reservations
  owners owner := (h'.owners owner).trans (h.owners owner)

/-- A quote still stands after its chain was rewritten. -/
theorem Touches.quote (h : Touches l l') (hq : l.quote q = some x) :
    ∃ x', l'.quote q = some x' ∧ x'.offer = x.offer ∧ x'.claim = x.claim := by
  have ho : l'.market.offers q = some x.offer := by
    rw [h.market]
    exact market_offers hq
  obtain ⟨x', hx', hoffer⟩ := quote_of_market ho
  have hclaim := h.owners (.quote q)
  simp only [ownerClaim, hx', hq, Option.map_some, Option.some.injEq] at hclaim
  exact ⟨x', hx', hoffer, hclaim⟩

theorem touches_modifyQuote {f : Quote → Quote} (hf : ∀ x, (f x).claim = x.claim)
    (hoffer : ∀ x, (f x).offer = x.offer) : Touches l (l.modifyQuote q f) where
  intact h := h.modifyQuote hf
  kept := kept_modifyQuote
  market := by
    rw [market, book_modifyQuote]
    exact Book.market_modifyQuote_of_offer hoffer
  reservations := rfl
  owners owner := by
    cases owner with
    | quote q' =>
        simp only [ownerClaim, quote_modifyQuote]
        split
        next heq => simp [heq, Function.comp_def, hf]
        next => rfl
    | request r' => rfl

theorem touches_modifyLeg {f : Leg → Leg} (hf : ∀ leg, (f leg).spec = leg.spec) :
    Touches l (l.modifyLeg r i f) where
  intact h := h.modifyRequest (fun _ => rfl) (fun _ => rfl) fun _ => rfl
  kept := kept_modifyRequest
  market := by
    rw [market, modifyLeg, book_modifyRequest (f := fun r => r.modifyLeg i f) fun _ => rfl]
    exact Book.market_modifyRequest_of_auction fun _ => Request.auction_modifyLeg hf
  reservations := rfl
  owners owner := by
    cases owner with
    | quote q' => rfl
    | request r' =>
        simp only [ownerClaim, modifyLeg, request_modifyRequest]
        split
        next heq => simp [heq, Function.comp_def, Request.modifyLeg]
        next => rfl

-- ============================================================================
-- Editing one chain
-- ============================================================================

/-- One quote's link, if any, and one leg's head and count are written. -/
def editChain (l : Ledger) (r : ReqIdx) (i : Nat) (link : Option (QuoteIdx × Link)) (head : Leg → Link)
    (count : Leg → Nat) : Ledger :=
  (match link with
    | some (p, n) => l.modifyQuote p fun x => { x with nextOnLeg := n }
    | none => l).modifyLeg r i fun leg =>
      { leg with quotesHead := head leg, quoteCount := count leg }

variable {link : Option (QuoteIdx × Link)} {head : Leg → Link} {count : Leg → Nat}

theorem touches_editChain : Touches l (l.editChain r i link head count) := by
  cases link with
  | none => exact touches_modifyLeg fun _ => rfl
  | some v =>
      refine Touches.trans (touches_modifyQuote ?_ ?_) (touches_modifyLeg fun _ => rfl)
      · exact fun _ => rfl
      · exact fun _ => rfl

theorem quotes_editChain (q' : QuoteIdx) :
    (l.editChain r i link head count).book.quotes q' =
      match link with
      | some (p, n) => if q' = p then (l.quote p).map fun x => { x with nextOnLeg := n } else l.quote q'
      | none => l.quote q' := by
  cases link with
  | none => rfl
  | some v => exact quote_modifyQuote q'

/-- The other links of the chain's quotes, as they were. -/
theorem nextOf_editChain (q' : QuoteIdx) :
    (l.editChain r i link head count).book.nextOf q' =
      match link with
      | some (p, n) => if q' = p then (l.quote p).map fun _ => n else l.book.nextOf q'
      | none => l.book.nextOf q' := by
  rw [Book.nextOf, quotes_editChain]
  cases link with
  | none => rfl
  | some v =>
      dsimp only
      split
      next => simp [Function.comp_def]
      next => rfl

/-- An edit that turns one open leg's chain into `qs` keeps the others. -/
theorem chained_editChain {loose' : Option QuoteIdx} {qs : List QuoteIdx}
    (hch : l.book.Chained max loose) (hr : l.request r = some y) (hleg : y.leg i = some leg)
    (hlink : ∀ p n, link = some (p, n) → ∃ x, l.quote p = some x ∧ x.request = r ∧ x.leg = i)
    (hloose : ∀ q x, l.quote q = some x → ¬ (x.request = r ∧ x.leg = i) →
      (some q ≠ loose' ↔ some q ≠ loose))
    (hpath : Path Handle.index (l.editChain r i link head count).book.nextOf (head leg) qs none)
    (hnodup : qs.Nodup) (hcount : count leg = qs.length) (hlen : qs.length ≤ max)
    (hmem : ∀ q, q ∈ qs ↔ some q ≠ loose' ∧ ∃ x, l.quote q = some x ∧ x.request = r ∧ x.leg = i) :
    (l.editChain r i link head count).book.Chained max loose' := by
  have hstored : ∀ q, ((l.editChain r i link head count).book.quotes q).map
      (fun x => (x.request, x.leg)) = (l.quote q).map fun x => (x.request, x.leg) := by
    intro q'
    rw [quotes_editChain]
    cases link with
    | none => rfl
    | some v =>
        dsimp only
        split
        next heq => simp [heq, Function.comp_def]
        next => rfl
  have hrequests : ∀ r', (l.editChain r i link head count).book.requests r' =
      if r' = r then (l.request r).map fun y => (y.modifyLeg i fun leg =>
        { leg with quotesHead := head leg, quoteCount := count leg }).unlinked
      else (l.request r').map Request.unlinked := by
    intro r'
    have hsame : ∀ l' : Ledger, l'.requests = l.requests → l'.request = l.request := by
      intro l' hl'
      funext r'
      rw [request, request, hl']
    have hl' : (match link with
        | some (p, n) => l.modifyQuote p fun x => { x with nextOnLeg := n }
        | none => l).request = l.request := by
      refine hsame _ ?_
      cases link <;> rfl
    simp only [editChain, modifyLeg, book, request_modifyRequest, hl']
    split
    next heq => simp [Function.comp_def]
    next => rfl
  refine hch.edit (r := r) (i := i) hstored ?_ hloose ?_ ?_
  · intro q' x' hx' hne
    rw [nextOf_editChain]
    cases link with
    | none => rfl
    | some v =>
        obtain ⟨p, n⟩ := v
        dsimp only
        rw [if_neg]
        rintro rfl
        obtain ⟨x'', hx'', hpr, hpi⟩ := hlink _ n rfl
        have hx' : l.quote q' = some x' := hx'
        rw [hx'', Option.some.injEq] at hx'
        exact hne (hx' ▸ ⟨hpr, hpi⟩)
  · intro r' y' i' leg' hy' hopened' hleg' hne
    rw [hrequests] at hy'
    split at hy'
    next heq =>
      subst heq
      rw [hr, Option.map_some, Option.some.injEq] at hy'
      subst hy'
      refine ⟨y.unlinked, book_requests hr, hopened', ?_⟩
      have hi : i ≠ i' := fun heq => hne ⟨rfl, heq.symm⟩
      simpa [Request.unlinked, Request.modifyLeg, List.getElem?_modify, hi] using hleg'
    next => exact ⟨y', hy', hopened', hleg'⟩
  · intro y' leg' hy' hleg'
    rw [hrequests, if_pos rfl, hr, Option.map_some, Option.some.injEq] at hy'
    subst hy'
    have hleg : y.legs[i]? = some leg := hleg
    have hleg' : some { leg with quotesHead := head leg, quoteCount := count leg } = some leg' := by
      simpa [Request.unlinked, Request.modifyLeg, List.getElem?_modify, hleg] using hleg'
    rw [Option.some.injEq] at hleg'
    subst hleg'
    refine ⟨qs, ⟨hpath, hnodup, hcount, fun q' => ?_⟩, hlen⟩
    rw [hmem q']
    exact and_congr_right fun _ =>
      (Book.exists_iff_of_map_eq (hstored q') fun key => key.1 = r ∧ key.2 = i).symm

-- ============================================================================
-- Unlinking
-- ============================================================================

theorem nextOnLeg_eq (hq : l.quote q = some x) : l.nextOnLeg q = x.nextOnLeg := by
  simp [nextOnLeg, hq]

theorem isSome_quote_of_path {head tail : Link} {qs : List QuoteIdx}
    (h : Path Handle.index l.book.nextOf head qs tail) (hq : q ∈ qs) : (l.quote q).isSome := by
  obtain ⟨n, hn⟩ := Option.isSome_iff_exists.mp (h.isSome_of_mem hq)
  obtain ⟨x, hx, -⟩ := quote_of_nextOf hn
  exact Option.isSome_iff_exists.mpr ⟨x, hx⟩

/-- A path that starts at `q`'s index starts at `q`. -/
theorem head_eq_of_index {head : Link} {qs : List QuoteIdx}
    (h : Path Handle.index l.book.nextOf head qs none) (hq : (l.quote q).isSome)
    (hhead : head = some q.index) : qs.head? = some q := by
  rw [h.head_eq, Option.map_eq_some_iff] at hhead
  obtain ⟨q', hq', hindex⟩ := hhead
  rw [hq', quote_eq_of_index_eq (isSome_quote_of_path h (List.mem_of_mem_head? hq')) hq hindex]

/-- The search stops at the quote before `q`. -/
theorem unlinkQuoteFrom_eq {head : Link} {xs ys : List QuoteIdx} {p : QuoteIdx} (fuel : Nat)
    (h : Path Handle.index l.book.nextOf head (xs ++ p :: q :: ys) none)
    (hnodup : (xs ++ p :: q :: ys).Nodup) (hfuel : xs.length + 1 ≤ fuel) :
    l.unlinkQuoteFrom r i q fuel head =
      l.editChain r i (some (p, l.nextOnLeg q)) (fun leg => leg.quotesHead)
        fun leg => leg.quoteCount - 1 := by
  have hq : (l.quote q).isSome := isSome_quote_of_path h (by simp)
  induction xs generalizing head fuel with
  | nil =>
      obtain ⟨rfl, n, hn, rfl, -⟩ := h
      obtain ⟨x, hx, hnext⟩ := quote_of_nextOf hn
      obtain ⟨fuel, rfl⟩ : ∃ n, fuel = n + 1 := Nat.exists_eq_add_one.mpr (by omega)
      rw [unlinkQuoteFrom, quoteHandleAt_of_quote hx]
      simp only [hx, hnext, if_true]
      rfl
  | cons z xs ih =>
      obtain ⟨rfl, n, hn, hrest⟩ := h
      obtain ⟨x, hx, rfl⟩ := quote_of_nextOf hn
      obtain ⟨fuel, rfl⟩ : ∃ n, fuel = n + 1 := Nat.exists_eq_add_one.mpr (by omega)
      have hnodup' := (List.nodup_cons.mp hnodup).2
      have hne : x.nextOnLeg ≠ some q.index := by
        intro heq
        have hhead := head_eq_of_index hrest hq heq
        cases xs with
        | nil =>
            obtain rfl : p = q := by simpa using hhead
            simp at hnodup'
        | cons w xs =>
            obtain rfl : w = q := by simpa using hhead
            simp at hnodup'
      rw [unlinkQuoteFrom, quoteHandleAt_of_quote hx]
      simp only [hx, if_neg hne]
      exact ih _ hrest hnodup' (by simp at hfuel; omega)

/-- What unlinking `q` from its chain leaves: `q` stored, on no chain. -/
theorem unlinkQuote_of_chained (hch : l.book.Chained max none) (hr : l.request r = some y)
    (hopened : y.state = .opened) (hleg : y.leg i = some leg) (hq : l.quote q = some x)
    (hxr : x.request = r) (hxi : x.leg = i) :
    Touches l (l.unlinkQuote r i q) ∧ (l.unlinkQuote r i q).book.Chained max (some q) := by
  obtain ⟨qs, hchain, hlen⟩ := hch.opened (book_requests hr) hopened hleg
  have hmem : q ∈ qs := (hchain.mem q).mpr ⟨by simp, x, hq, hxr, hxi⟩
  have hlegOf : l.legOf r i = some leg := by simp [legOf, hr, hleg]
  have hloose : ∀ q' x', l.quote q' = some x' → ¬ (x'.request = r ∧ x'.leg = i) →
      (some q' ≠ some q ↔ some q' ≠ none) := by
    intro q' x' hx' hne
    simp only [ne_eq, Option.some.injEq, reduceCtorEq, not_false_eq_true, iff_true]
    rintro rfl
    rw [hq, Option.some.injEq] at hx'
    exact hne (hx' ▸ ⟨hxr, hxi⟩)
  obtain ⟨xs, ys, rfl⟩ := List.append_of_mem hmem
  have hrest : (xs ++ ys).Nodup ∧ q ∉ xs ++ ys := by
    have := List.nodup_middle.mp hchain.nodup
    exact ⟨(List.nodup_cons.mp this).2, (List.nodup_cons.mp this).1⟩
  have hmem' : ∀ q', q' ∈ xs ++ ys ↔
      some q' ≠ some q ∧ ∃ x, l.quote q' = some x ∧ x.request = r ∧ x.leg = i := by
    intro q'
    have hiff := hchain.mem q'
    simp only [ne_eq, reduceCtorEq, not_false_eq_true, true_and, List.mem_append,
      List.mem_cons] at hiff
    constructor
    · intro hin
      refine ⟨?_, hiff.mp ?_⟩
      · rintro heq
        rw [Option.some.injEq] at heq
        exact hrest.2 (heq ▸ hin)
      · rcases List.mem_append.mp hin with h | h
        · exact .inl h
        · exact .inr (.inr h)
    · rintro ⟨hne, hx'⟩
      rcases hiff.mpr hx' with h | h | h
      · exact List.mem_append.mpr (.inl h)
      · exact absurd (congrArg some h) hne
      · exact List.mem_append.mpr (.inr h)
  have hcount : leg.quoteCount - 1 = (xs ++ ys).length := by
    rw [hchain.count]
    simp
  have hlen' : (xs ++ ys).length ≤ max := by
    simp only [List.length_append, List.length_cons] at hlen ⊢
    omega
  rcases xs.eq_nil_or_concat' with rfl | ⟨xs, p, rfl⟩
  · have hhead : leg.quotesHead = some q.index := hchain.path.1
    have hedit : l.unlinkQuote r i q =
        l.editChain r i none (fun _ => l.nextOnLeg q) fun leg => leg.quoteCount - 1 := by
      rw [unlinkQuote, hlegOf]
      simp only [hhead, if_true]
      rfl
    rw [hedit]
    refine ⟨touches_editChain, chained_editChain hch hr hleg (by simp) hloose ?_ hrest.1 hcount
      hlen' hmem'⟩
    rw [nextOnLeg_eq hq]
    refine (hchain.path.unlinkHead (nextOf_eq hq)).congr fun q' _ => ?_
    rw [nextOf_editChain]
  · rw [List.append_assoc, List.singleton_append] at hchain
    have hp : p ∈ xs ++ p :: q :: ys := by simp
    obtain ⟨px, hpx, hpr, hpi⟩ := hchain.stored hp
    have hne : leg.quotesHead ≠ some q.index := by
      intro heq
      have hhead := head_eq_of_index hchain.path (by simp [hq]) heq
      have hnodup := hchain.nodup
      cases xs with
      | nil =>
          obtain rfl : p = q := by simpa using hhead
          simp at hnodup
      | cons w xs =>
          obtain rfl : w = q := by simpa using hhead
          simp at hnodup
    have hfuel : xs.length + 1 ≤ l.quotes.capacity := by
      have := legChain_length_le hchain
      simp only [List.length_append, List.length_cons] at this
      omega
    have hedit : l.unlinkQuote r i q =
        l.editChain r i (some (p, l.nextOnLeg q)) (fun leg => leg.quotesHead)
          fun leg => leg.quoteCount - 1 := by
      rw [unlinkQuote, hlegOf]
      simp only [if_neg hne]
      exact unlinkQuoteFrom_eq _ hchain.path hchain.nodup hfuel
    rw [hedit]
    refine ⟨touches_editChain, chained_editChain hch hr hleg ?_ hloose ?_ hrest.1 hcount hlen'
      hmem'⟩
    · intro p' n heq
      rw [Option.some.injEq, Prod.mk.injEq] at heq
      exact heq.1 ▸ ⟨px, hpx, hpr, hpi⟩
    · rw [List.append_assoc, List.singleton_append]
      refine hchain.path.unlinkAfter (nextOf_eq hq) ?_ ?_
      · have hpx : l.quote p = some px := hpx
        rw [nextOf_editChain]
        simp [hpx, nextOnLeg_eq hq]
      · intro b hb
        rw [nextOf_editChain]
        dsimp only
        rw [if_neg]
        rintro rfl
        have := List.nodup_middle.mp hchain.nodup
        refine (List.nodup_cons.mp this).1 ?_
        rcases List.mem_append.mp hb with h | h
        · exact List.mem_append.mpr (.inl h)
        · exact List.mem_append.mpr (.inr (List.mem_cons_of_mem _ h))

-- ============================================================================
-- Linking
-- ============================================================================

/-- Linking a loose quote puts it in front of its chain. -/
theorem linkQuote_of_chained (hch : l.book.Chained max (some q)) (hr : l.request r = some y)
    (hopened : y.state = .opened) (hleg : y.leg i = some leg) (hq : l.quote q = some x)
    (hxr : x.request = r) (hxi : x.leg = i) (hroom : leg.quoteCount < max) (hmax : max ≤ 255) :
    Touches l (l.linkQuote r i q) ∧ (l.linkQuote r i q).book.Chained max none := by
  obtain ⟨qs, hchain, hlen⟩ := hch.opened (book_requests hr) hopened hleg
  have hnot : q ∉ qs := fun hmem => ((hchain.mem q).mp hmem).1 rfl
  have hlegOf : l.legOf r i = some leg := by simp [legOf, hr, hleg]
  have hcount := hchain.count
  have hedit : l.linkQuote r i q = l.editChain r i (some (q, leg.quotesHead))
      (fun _ => some q.index) fun leg => min (leg.quoteCount + 1) 255 := by
    rw [linkQuote, hlegOf]
    rfl
  rw [hedit]
  refine ⟨touches_editChain, chained_editChain hch hr hleg ?_ ?_ ?_
    (List.nodup_cons.mpr ⟨hnot, hchain.nodup⟩) ?_ ?_ ?_⟩
  · intro p n heq
    rw [Option.some.injEq, Prod.mk.injEq] at heq
    exact heq.1 ▸ ⟨x, hq, hxr, hxi⟩
  · intro q' x' hx' hne
    simp only [ne_eq, Option.some.injEq, reduceCtorEq, not_false_eq_true, true_iff]
    rintro rfl
    rw [hq, Option.some.injEq] at hx'
    exact hne (hx' ▸ ⟨hxr, hxi⟩)
  · refine hchain.path.push ?_ fun b hb => ?_
    · rw [nextOf_editChain]
      simp [hq]
    · rw [nextOf_editChain]
      dsimp only
      rw [if_neg]
      rintro rfl
      exact hnot hb
  · simp only [List.length_cons]
    omega
  · simp only [List.length_cons]
    omega
  · intro q'
    by_cases heq : q' = q
    · subst heq
      simp only [List.mem_cons, true_or, ne_eq, reduceCtorEq, not_false_eq_true, true_and, true_iff]
      exact ⟨x, hq, hxr, hxi⟩
    · have hiff := hchain.mem q'
      simp only [ne_eq, Option.some.injEq, heq, not_false_eq_true, true_and] at hiff
      simp only [List.mem_cons, heq, false_or, ne_eq, reduceCtorEq, not_false_eq_true, true_and]
      exact hiff

end Ledger

end RfqSettlement
