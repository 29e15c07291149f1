/-
  RfqSettlement.Core.Links

  The intrusive links of the ledger.  A `LinkView` is the pointers, with just
  enough of each claim to say which chain it belongs on; `Threads` says that
  every expiry chain and every committed list visits exactly its own claims.

  The chain plumbing of the ledger is an edit of the link view: the operations on
  an account's chain are `Intrusive.Chain`'s, and `Threads` survives each edit.
  Between two edits of one command a single claim may be loose, standing in the
  slab but on no chain.
-/

import RfqSettlement.Core.Book
import RfqSettlement.Lib.Threaded

namespace RfqSettlement

/-- The pointers of the ledger: every claim's neighbours, the two ends of each
    account's expiry chain, and the head of each request's committed list. -/
@[ext] structure LinkView where
  node : Nat → Option (Link × Link)
  claim : Nat → Option Claim
  ends : Nat → Option (Link × Link)
  listHead : ReqIdx → Option Link

def Ledger.links (l : Ledger) : LinkView where
  node i := (l.reservationAt i).map Reservation.neighbours
  claim i := (l.reservationAt i).map Reservation.toClaim
  ends a := (l.account a).map fun m => (m.expiryHead, m.expiryTail)
  listHead r := (l.request r).map Request.committedHead

namespace LinkView

-- ============================================================================
-- Chains of a link view
-- ============================================================================

/-- One account's expiry chain. -/
def chain (v : LinkView) (account : Nat) : Intrusive.Chain Nat where
  node := v.node
  head := ((v.ends account).map Prod.fst).getD none
  tail := ((v.ends account).map Prod.snd).getD none

/-- The view with one account's chain exchanged. -/
def withChain (v : LinkView) (account : Nat) (c : Intrusive.Chain Nat) : LinkView :=
  { v with
    node := c.node
    ends := fun a => if a = account then (v.ends a).map fun _ => (c.head, c.tail) else v.ends a }

/-- When the claim at `index` expires; zero where it never does. -/
def expiry (v : LinkView) (index : Nat) : Nat :=
  match (v.claim index).map Claim.status with
  | some (.reserved e) => e
  | _ => 0

/-- `E a` is account `a`'s expiry chain and `C r` is request `r`'s committed
    list: each visits exactly the claims that belong on it, `loose` apart. -/
structure Threads (v : LinkView) (loose : Link) (E : Nat → List Nat) (C : ReqIdx → List Nat) :
    Prop where
  expiry : ∀ a, (v.ends a).isSome → (v.chain a).Holds (E a)
  expiry_mem : ∀ a i, i ∈ E a ↔
    loose ≠ some i ∧ ∃ k e, v.claim i = some k ∧ k.account = a ∧ k.status = .reserved e
  sorted : ∀ a, (E a).Pairwise fun i j => v.expiry i ≤ v.expiry j
  list : ∀ r head, v.listHead r = some head →
    head = (C r).head? ∧ Intrusive.Segment v.node none (C r) none
  list_nodup : ∀ r, (C r).Nodup
  list_mem : ∀ r i, i ∈ C r ↔
    loose ≠ some i ∧ ∃ k, v.claim i = some k ∧ k.status = .committed r

variable {v : LinkView} {loose : Link} {E : Nat → List Nat} {C : ReqIdx → List Nat}
  {account a i e : Nat} {r : ReqIdx} {k : Claim} {c : Intrusive.Chain Nat}

theorem chain_withChain (h : (v.ends account).isSome) : (v.withChain account c).chain account = c := by
  obtain ⟨x, hx⟩ := Option.isSome_iff_exists.mp h
  simp [chain, withChain, hx]

theorem withChain_chain (account : Nat) : v.withChain account (v.chain account) = v := by
  ext1
  case ends =>
    funext a
    simp only [withChain, chain]
    split
    next h =>
      subst h
      cases v.ends a <;> rfl
    next => rfl
  all_goals rfl

theorem withChain_withChain {c' : Intrusive.Chain Nat} :
    (v.withChain account c).withChain account c' = v.withChain account c' := by
  ext1
  case ends =>
    funext a
    simp only [withChain]
    split <;> simp [Function.comp_def]
  all_goals rfl

@[simp] theorem claim_withChain : (v.withChain account c).claim = v.claim := rfl
@[simp] theorem expiry_withChain : (v.withChain account c).expiry = v.expiry := rfl
@[simp] theorem listHead_withChain : (v.withChain account c).listHead = v.listHead := rfl

theorem isSome_ends_withChain : ((v.withChain account c).ends a).isSome = (v.ends a).isSome := by
  simp only [withChain]
  split <;> simp

theorem expiry_eq (hk : v.claim i = some k) (hs : k.status = .reserved e) : v.expiry i = e := by
  simp [LinkView.expiry, hk, hs]

-- ============================================================================
-- Which chain a claim is on
-- ============================================================================

theorem Threads.claim_of_mem (h : v.Threads loose E C) (hi : i ∈ E a) :
    ∃ k e, v.claim i = some k ∧ k.account = a ∧ k.status = .reserved e :=
  ((h.expiry_mem a i).mp hi).2

theorem Threads.claim_of_mem_list (h : v.Threads loose E C) (hi : i ∈ C r) :
    ∃ k, v.claim i = some k ∧ k.status = .committed r :=
  ((h.list_mem r i).mp hi).2

/-- Expiry chains of different accounts share no claim. -/
theorem Threads.eq_of_mem (h : v.Threads loose E C) (ha : i ∈ E account) (hb : i ∈ E a) :
    a = account := by
  obtain ⟨k, _, hk, hka, -⟩ := h.claim_of_mem ha
  obtain ⟨k', _, hk', hkb, -⟩ := h.claim_of_mem hb
  rw [hk, Option.some.injEq] at hk'
  rw [← hka, ← hkb, hk']

/-- No claim is on an expiry chain and on a committed list. -/
theorem Threads.notMem_list (h : v.Threads loose E C) (hi : i ∈ E a) : i ∉ C r := by
  intro hr
  obtain ⟨k, _, hk, -, hs⟩ := h.claim_of_mem hi
  obtain ⟨k', hk', hs'⟩ := h.claim_of_mem_list hr
  rw [hk, Option.some.injEq] at hk'
  rw [← hk', hs] at hs'
  cases hs'

theorem Threads.list_eq_of_mem {r' : ReqIdx} (h : v.Threads loose E C) (hi : i ∈ C r)
    (hi' : i ∈ C r') : r' = r := by
  obtain ⟨k, hk, hs⟩ := h.claim_of_mem_list hi
  obtain ⟨k', hk', hs'⟩ := h.claim_of_mem_list hi'
  rw [hk, Option.some.injEq] at hk'
  subst hk'
  rw [hs, ClaimStatus.committed.injEq] at hs'
  exact hs'.symm

-- ============================================================================
-- Edits of one expiry chain
-- ============================================================================

/-- Exchanging one account's chain, when no node off the old and new chain is
    written.  The rest of the view is untouched, so only that chain is owed. -/
theorem Threads.withChain {loose' : Link} {is : List Nat} (h : v.Threads loose E C)
    (hc : c.Holds is) (hnode : ∀ j, j ∉ E account → loose ≠ some j → c.node j = v.node j)
    (hmem : ∀ j, j ∈ is ↔ loose' ≠ some j ∧
      ∃ k e, v.claim j = some k ∧ k.account = account ∧ k.status = .reserved e)
    (hothers : ∀ j k, v.claim j = some k → (k.account ≠ account ∨ ∀ e, k.status ≠ .reserved e) →
      (loose' ≠ some j ↔ loose ≠ some j))
    (hsorted : is.Pairwise fun i j => v.expiry i ≤ v.expiry j) :
    (v.withChain account c).Threads loose' (Function.update E account is) C := by
  refine ⟨?_, ?_, ?_, ?_, h.list_nodup, ?_⟩
  · intro a ha
    rw [isSome_ends_withChain] at ha
    by_cases heq : a = account
    · subst heq
      rw [chain_withChain ha, Function.update_self]
      exact hc
    · rw [Function.update_of_ne heq]
      obtain ⟨hnodup, hseg, hhead, htail⟩ := h.expiry a ha
      refine ⟨hnodup, hseg.congr ?_, ?_, ?_⟩
      · intro j hj
        exact hnode j (fun hj' => heq (h.eq_of_mem hj' hj)) ((h.expiry_mem a j).mp hj).1
      · simpa [chain, LinkView.withChain, heq] using hhead
      · simpa [chain, LinkView.withChain, heq] using htail
  · intro a j
    by_cases heq : a = account
    · subst heq
      rw [Function.update_self]
      exact hmem j
    · rw [Function.update_of_ne heq, h.expiry_mem a j]
      constructor
      · rintro ⟨hl, k, e, hk, rfl, hs⟩
        exact ⟨(hothers j k hk (.inl heq)).mpr hl, k, e, hk, rfl, hs⟩
      · rintro ⟨hl, k, e, hk, rfl, hs⟩
        exact ⟨(hothers j k hk (.inl heq)).mp hl, k, e, hk, rfl, hs⟩
  · intro a
    by_cases heq : a = account
    · subst heq
      rw [Function.update_self]
      exact hsorted
    · rw [Function.update_of_ne heq]
      exact h.sorted a
  · intro r head hhead
    obtain ⟨hfst, hseg⟩ := h.list r head hhead
    refine ⟨hfst, hseg.congr ?_⟩
    intro j hj
    exact hnode j (fun hj' => h.notMem_list hj' hj) ((h.list_mem r j).mp hj).1
  · intro r j
    rw [h.list_mem r j]
    constructor
    · rintro ⟨hl, k, hk, hs⟩
      exact ⟨(hothers j k hk (.inr (by simp [hs]))).mpr hl, k, hk, hs⟩
    · rintro ⟨hl, k, hk, hs⟩
      exact ⟨(hothers j k hk (.inr (by simp [hs]))).mp hl, k, hk, hs⟩

/-- Unlinking a claim leaves it loose. -/
theorem Threads.unlink (xs : List Nat) {ys : List Nat} (h : v.Threads none E C)
    (hends : (v.ends account).isSome) (hE : E account = xs ++ i :: ys) :
    (v.withChain account ((v.chain account).unlink i)).Threads (some i)
      (Function.update E account (xs ++ ys)) C := by
  obtain ⟨k, e, hk, ha, hs⟩ := h.claim_of_mem (a := account) (i := i) (by simp [hE])
  have hchain := h.expiry account hends
  rw [hE] at hchain
  have hnodup := hchain.nodup
  refine h.withChain (Intrusive.Chain.unlink_holds hchain) ?_ ?_ ?_ ?_
  · intro j hj _
    exact Intrusive.Chain.unlink_node_of_notMem hchain (hE ▸ hj)
  · intro j
    have hmem := h.expiry_mem account j
    rw [hE] at hmem
    have hne : j ∈ xs ++ ys ↔ some i ≠ some j ∧ j ∈ xs ++ i :: ys := by
      rw [List.nodup_middle, List.nodup_cons] at hnodup
      constructor
      · intro hj
        refine ⟨?_, by simpa using Or.imp_right Or.inr (List.mem_append.mp hj)⟩
        intro heq
        cases heq
        exact hnodup.1 hj
      · rintro ⟨hij, hj⟩
        have : j ≠ i := fun heq => hij (by rw [heq])
        simpa [this] using hj
    rw [hne, hmem]
    simp
  · intro j k' hk' hout
    have hij : i ≠ j := by
      rintro rfl
      rw [hk, Option.some.injEq] at hk'
      subst hk'
      rcases hout with hne | hne
      · exact hne ha
      · exact hne e hs
    simp [hij]
  · have hsorted := h.sorted account
    rw [hE] at hsorted
    exact hsorted.sublist (by simp)

/-- Where an entry of expiry `e` goes: behind everything that does not expire
    later. -/
def Cut (v : LinkView) (e : Nat) (xs ys : List Nat) : Prop :=
  (∀ j ∈ xs, v.expiry j ≤ e) ∧ ∀ j ∈ ys, e < v.expiry j

theorem pairwise_insert {xs ys : List Nat} (hcut : v.Cut (v.expiry i) xs ys)
    (h : (xs ++ ys).Pairwise fun i j => v.expiry i ≤ v.expiry j) :
    (xs ++ i :: ys).Pairwise fun i j => v.expiry i ≤ v.expiry j := by
  rw [List.pairwise_append] at h ⊢
  obtain ⟨hx, hy, hxy⟩ := h
  refine ⟨hx, List.pairwise_cons.mpr ⟨fun j hj => (hcut.2 j hj).le, hy⟩, ?_⟩
  intro j hj j' hj'
  rcases List.mem_cons.mp hj' with rfl | hj'
  · exact hcut.1 j hj
  · exact hxy j hj j' hj'

/-- Linking the loose claim where it belongs. -/
theorem Threads.splice {xs ys : List Nat} (h : v.Threads (some i) E C)
    (hE : E account = xs ++ ys) (hk : v.claim i = some k) (ha : k.account = account)
    (hs : k.status = .reserved e) (hcut : v.Cut e xs ys) (hc : c.Holds (xs ++ i :: ys))
    (hnode : ∀ j, j ∉ xs ++ ys → j ≠ i → c.node j = v.node j) :
    ∃ E', (v.withChain account c).Threads none E' C := by
  refine ⟨_, h.withChain hc ?_ ?_ ?_ (pairwise_insert ?_ (hE ▸ h.sorted account))⟩
  · intro j hj hij
    exact hnode j (hE ▸ hj) fun heq => hij (by rw [heq])
  · intro j
    have hmem := h.expiry_mem account j
    rw [hE] at hmem
    have : j ∈ xs ++ i :: ys ↔ j = i ∨ j ∈ xs ++ ys := by
      simp only [List.mem_append, List.mem_cons]
      tauto
    rw [this, hmem]
    constructor
    · rintro (rfl | ⟨-, hj⟩)
      · exact ⟨by simp, k, e, hk, ha, hs⟩
      · exact ⟨by simp, hj⟩
    · rintro ⟨-, hj⟩
      by_cases hji : j = i
      · exact .inl hji
      · exact .inr ⟨by simp [Ne.symm hji], hj⟩
  · intro j k' hk' hout
    have hij : i ≠ j := by
      rintro rfl
      rw [hk, Option.some.injEq] at hk'
      subst hk'
      rcases hout with hne | hne
      · exact hne ha
      · exact hne e hs
    simp [hij]
  · rwa [expiry_eq hk hs]

-- ============================================================================
-- Slots and committed lists
-- ============================================================================

/-- A slot written with a claim linked nowhere yet. -/
def putSlot (v : LinkView) (i : Nat) (k : Claim) : LinkView :=
  { v with
    node := Function.update v.node i (some (none, none))
    claim := Function.update v.claim i (some k) }

/-- A slot emptied. -/
def dropSlot (v : LinkView) (i : Nat) : LinkView :=
  { v with
    node := Function.update v.node i none
    claim := Function.update v.claim i none }

/-- Every claim but one, and every chain, as before. -/
theorem Threads.of_loose {v' : LinkView} {loose' : Link} (h : v.Threads (some i) E C)
    (hends : v'.ends = v.ends) (hlist : v'.listHead = v.listHead)
    (hnode : ∀ j, j ≠ i → v'.node j = v.node j) (hclaim : ∀ j, j ≠ i → v'.claim j = v.claim j)
    (hi : loose' = some i ∨ loose' = none ∧ v'.claim i = none) : v'.Threads loose' E C := by
  have hoff : ∀ a, i ∉ E a := fun a hi => ((h.expiry_mem a i).mp hi).1 rfl
  have hoff' : ∀ r, i ∉ C r := fun r hi => ((h.list_mem r i).mp hi).1 rfl
  have hloose : ∀ j, j ≠ i → (loose' ≠ some j ↔ some i ≠ some j) := by
    intro j hj
    rcases hi with rfl | ⟨rfl, -⟩ <;> simp [Ne.symm hj]
  have hself : ∀ P : Claim → Prop, ¬ (loose' ≠ some i ∧ ∃ k, v'.claim i = some k ∧ P k) := by
    rintro P ⟨hne, k, hk, -⟩
    rcases hi with rfl | ⟨rfl, hnone⟩
    · exact hne rfl
    · simp [hnone] at hk
  refine ⟨?_, ?_, ?_, ?_, h.list_nodup, ?_⟩
  · intro a ha
    obtain ⟨hnodup, hseg, hhead, htail⟩ := h.expiry a (hends ▸ ha)
    refine ⟨hnodup, hseg.congr fun j hj => hnode j fun heq => hoff a (heq ▸ hj), ?_, ?_⟩
    · simpa [chain, hends] using hhead
    · simpa [chain, hends] using htail
  · intro a j
    by_cases hj : j = i
    · subst hj
      refine ⟨fun hj => absurd hj (hoff a), ?_⟩
      rintro ⟨hne, k, e, hk, hp⟩
      exact absurd ⟨hne, k, hk, e, hp⟩ (hself fun k => ∃ e, k.account = a ∧ k.status = .reserved e)
    · rw [h.expiry_mem a j, hclaim j hj, hloose j hj]
  · intro a
    refine (h.sorted a).imp_of_mem ?_
    intro j j' hj hj' hle
    have h₁ : j ≠ i := fun heq => hoff a (heq ▸ hj)
    have h₂ : j' ≠ i := fun heq => hoff a (heq ▸ hj')
    simpa [LinkView.expiry, hclaim j h₁, hclaim j' h₂] using hle
  · intro r head hhead
    obtain ⟨hfst, hseg⟩ := h.list r head (hlist ▸ hhead)
    exact ⟨hfst, hseg.congr fun j hj => hnode j fun heq => hoff' r (heq ▸ hj)⟩
  · intro r j
    by_cases hj : j = i
    · subst hj
      refine ⟨fun hj => absurd hj (hoff' r), ?_⟩
      rintro ⟨hne, k, hk, hp⟩
      exact absurd ⟨hne, k, hk, hp⟩ (hself fun k => k.status = .committed r)
    · rw [h.list_mem r j, hclaim j hj, hloose j hj]

/-- An empty slot is on no chain, so it may be called loose. -/
theorem Threads.loosen (h : v.Threads none E C) (hi : v.claim i = none) :
    v.Threads (some i) E C := by
  refine ⟨h.expiry, ?_, h.sorted, h.list, h.list_nodup, ?_⟩
  · intro a j
    rw [h.expiry_mem a j]
    refine ⟨?_, fun ⟨_, hj⟩ => ⟨by simp, hj⟩⟩
    rintro ⟨-, k, e, hk, hp⟩
    refine ⟨?_, k, e, hk, hp⟩
    rintro ⟨⟩
    simp [hi] at hk
  · intro r j
    rw [h.list_mem r j]
    refine ⟨?_, fun ⟨_, hj⟩ => ⟨by simp, hj⟩⟩
    rintro ⟨-, k, hk, hp⟩
    refine ⟨?_, k, hk, hp⟩
    rintro ⟨⟩
    simp [hi] at hk

theorem Threads.putSlot (h : v.Threads none E C) (hi : v.claim i = none) :
    (v.putSlot i k).Threads (some i) E C := by
  refine (h.loosen hi).of_loose rfl rfl ?_ ?_ (.inl rfl)
  · intro j hj
    simp [LinkView.putSlot, Function.update_of_ne hj]
  · intro j hj
    simp [LinkView.putSlot, Function.update_of_ne hj]

theorem Threads.dropSlot (h : v.Threads (some i) E C) : (v.dropSlot i).Threads none E C := by
  refine h.of_loose rfl rfl ?_ ?_ (.inr ⟨rfl, by simp [LinkView.dropSlot]⟩)
  · intro j hj
    simp [LinkView.dropSlot, Function.update_of_ne hj]
  · intro j hj
    simp [LinkView.dropSlot, Function.update_of_ne hj]

/-- The loose claim goes to the head of its request's list. -/
def pushList (v : LinkView) (i : Nat) (r : ReqIdx) (head : Link) : LinkView :=
  { v with
    node := fun j => if head = some j then (v.node j).map fun l => (some i, l.2) else v.node j
    listHead := Function.update v.listHead r (some (some i)) }

theorem Threads.pushList {head : Link} (h : v.Threads (some i) E C)
    (hhead : v.listHead r = some head) (hk : v.claim i = some k) (hs : k.status = .committed r)
    (hi : v.node i = some (none, head)) :
    (v.pushList i r head).Threads none E (Function.update C r (i :: C r)) := by
  obtain ⟨hfst, hseg⟩ := h.list r head hhead
  have hoff : ∀ a, i ∉ E a := fun a hi => ((h.expiry_mem a i).mp hi).1 rfl
  have hoff' : ∀ r, i ∉ C r := fun r hi => ((h.list_mem r i).mp hi).1 rfl
  have hmem : ∀ j, head = some j → j ∈ C r := by
    intro j hj
    rw [hj] at hfst
    exact List.mem_of_head? hfst.symm
  have hnode : ∀ j, j ∉ C r → (v.pushList i r head).node j = v.node j := by
    intro j hj
    simp only [LinkView.pushList]
    rw [if_neg fun heq => hj (hmem j heq)]
  have hni : (v.pushList i r head).node i = some (none, head) := by rw [hnode i (hoff' r), hi]
  refine ⟨?_, ?_, h.sorted, ?_, ?_, ?_⟩
  · intro a ha
    obtain ⟨hnodup, hseg', hh, ht⟩ := h.expiry a ha
    exact ⟨hnodup, hseg'.congr fun j hj => hnode j (h.notMem_list hj), hh, ht⟩
  · intro a j
    rw [h.expiry_mem a j]
    refine ⟨fun ⟨_, hj⟩ => ⟨by simp, hj⟩, ?_⟩
    rintro ⟨-, k', e, hk', ha, hs'⟩
    refine ⟨?_, k', e, hk', ha, hs'⟩
    rintro ⟨⟩
    rw [show v.claim i = some k' from hk', Option.some.injEq] at hk
    rw [← hk, hs'] at hs
    cases hs
  · intro r' head' hhead'
    by_cases heq : r' = r
    · subst heq
      simp only [LinkView.pushList, Function.update_self, Option.some.injEq] at hhead'
      subst hhead'
      rw [Function.update_self]
      refine ⟨rfl, ?_, ?_⟩
      · simpa [hfst] using hni
      · cases hC : C r' with
        | nil => trivial
        | cons x xs =>
            rw [hC] at hseg hfst
            refine hseg.refirst ?_ ?_
            · simp [LinkView.pushList, hfst]
            · intro j hj
              have hne : x ≠ j := by
                rintro rfl
                have := h.list_nodup r'
                rw [hC] at this
                exact (List.nodup_cons.mp this).1 hj
              simp [LinkView.pushList, hfst, hne]
    · simp only [LinkView.pushList, Function.update_of_ne heq] at hhead' ⊢
      obtain ⟨hfst', hseg'⟩ := h.list r' head' hhead'
      refine ⟨hfst', hseg'.congr fun j hj => hnode j fun hj' => heq (h.list_eq_of_mem hj' hj)⟩
  · intro r'
    by_cases heq : r' = r
    · subst heq
      rw [Function.update_self]
      exact List.nodup_cons.mpr ⟨hoff' r', h.list_nodup r'⟩
    · rw [Function.update_of_ne heq]
      exact h.list_nodup r'
  · intro r' j
    by_cases heq : r' = r
    · subst heq
      rw [Function.update_self, List.mem_cons, h.list_mem r' j]
      constructor
      · rintro (rfl | ⟨-, hj⟩)
        · exact ⟨by simp, k, hk, hs⟩
        · exact ⟨by simp, hj⟩
      · rintro ⟨-, hj⟩
        by_cases hji : j = i
        · exact .inl hji
        · exact .inr ⟨by simp [Ne.symm hji], hj⟩
    · rw [Function.update_of_ne heq, h.list_mem r' j]
      refine ⟨fun ⟨_, hj⟩ => ⟨by simp, hj⟩, ?_⟩
      rintro ⟨-, k', hk', hs'⟩
      refine ⟨?_, k', hk', hs'⟩
      rintro ⟨⟩
      rw [show v.claim i = some k' from hk', Option.some.injEq] at hk
      rw [← hk, hs', ClaimStatus.committed.injEq] at hs
      exact heq hs

/-- Several slots emptied. -/
def erase (v : LinkView) (is : List Nat) : LinkView :=
  { v with
    node := fun j => if j ∈ is then none else v.node j
    claim := fun j => if j ∈ is then none else v.claim j }

theorem erase_nil : v.erase [] = v := by
  simp [erase]

theorem erase_cons {is : List Nat} : v.erase (i :: is) = (v.dropSlot i).erase is := by
  ext1
  case node =>
    funext j
    by_cases hj : j = i <;> simp [erase, LinkView.dropSlot, hj]
  case claim =>
    funext j
    by_cases hj : j = i <;> simp [erase, LinkView.dropSlot, hj]
  all_goals rfl

/-- Every slot of a request's list emptied. -/
def dropList (v : LinkView) (r : ReqIdx) (is : List Nat) : LinkView :=
  { v.erase is with
    listHead := Function.update v.listHead r ((v.listHead r).map fun _ => none) }

theorem Threads.dropList (h : v.Threads none E C) :
    (v.dropList r (C r)).Threads none E (Function.update C r []) := by
  have hE : ∀ a j, j ∈ E a → j ∉ C r := fun a j hj => h.notMem_list hj
  have hC : ∀ r' j, r' ≠ r → j ∈ C r' → j ∉ C r := fun r' j hne hj hj' =>
    hne (h.list_eq_of_mem hj' hj)
  refine ⟨?_, ?_, ?_, ?_, ?_, ?_⟩
  · intro a ha
    obtain ⟨hnodup, hseg, hh, ht⟩ := h.expiry a ha
    refine ⟨hnodup, hseg.congr fun j hj => ?_, hh, ht⟩
    simp [chain, LinkView.dropList, LinkView.erase, hE a j hj]
  · intro a j
    rw [h.expiry_mem a j]
    constructor
    · rintro ⟨hl, k, e, hk, ha, hs⟩
      have hj := (h.expiry_mem a j).mpr ⟨hl, k, e, hk, ha, hs⟩
      exact ⟨hl, k, e, by simpa [LinkView.dropList, LinkView.erase, hE a j hj] using hk, ha, hs⟩
    · rintro ⟨hl, k, e, hk, ha, hs⟩
      simp only [LinkView.dropList, LinkView.erase, Option.ite_none_left_eq_some] at hk
      exact ⟨hl, k, e, hk.2, ha, hs⟩
  · intro a
    refine (h.sorted a).imp_of_mem ?_
    intro j j' hj hj' hle
    simpa [LinkView.expiry, LinkView.dropList, LinkView.erase, hE a j hj, hE a j' hj'] using hle
  · intro r' head hhead
    by_cases heq : r' = r
    · subst heq
      simp only [LinkView.dropList, Function.update_self, Option.map_eq_some_iff] at hhead
      obtain ⟨_, _, rfl⟩ := hhead
      rw [Function.update_self]
      exact ⟨rfl, trivial⟩
    · simp only [LinkView.dropList, Function.update_of_ne heq] at hhead
      rw [Function.update_of_ne heq]
      obtain ⟨hfst, hseg⟩ := h.list r' head hhead
      refine ⟨hfst, hseg.congr fun j hj => ?_⟩
      simp [LinkView.dropList, LinkView.erase, hC r' j heq hj]
  · intro r'
    by_cases heq : r' = r
    · subst heq
      simp
    · rw [Function.update_of_ne heq]
      exact h.list_nodup r'
  · intro r' j
    by_cases heq : r' = r
    · subst heq
      rw [Function.update_self]
      refine ⟨fun hj => by simp at hj, ?_⟩
      rintro ⟨hl, k, hk, hs⟩
      simp only [LinkView.dropList, LinkView.erase, Option.ite_none_left_eq_some] at hk
      exact absurd ((h.list_mem r' j).mpr ⟨hl, k, hk.2, hs⟩) hk.1
    · rw [Function.update_of_ne heq, h.list_mem r' j]
      constructor
      · rintro ⟨hl, k, hk, hs⟩
        have hj := (h.list_mem r' j).mpr ⟨hl, k, hk, hs⟩
        exact ⟨hl, k, by simpa [LinkView.dropList, LinkView.erase, hC r' j heq hj] using hk, hs⟩
      · rintro ⟨hl, k, hk, hs⟩
        simp only [LinkView.dropList, LinkView.erase, Option.ite_none_left_eq_some] at hk
        exact ⟨hl, k, hk.2, hs⟩

/-- A request slot that lists nothing comes or goes. -/
theorem Threads.setListHead {head : Option Link} (h : v.Threads none E C)
    (hhead : head = none ∨ head = some none ∧ C r = []) :
    ({ v with listHead := Function.update v.listHead r head }).Threads none E C := by
  refine ⟨h.expiry, h.expiry_mem, h.sorted, ?_, h.list_nodup, h.list_mem⟩
  intro r' head' hhead'
  by_cases heq : r' = r
  · subst heq
    simp only [Function.update_self] at hhead'
    rcases hhead with rfl | ⟨rfl, hC⟩
    · cases hhead'
    · cases hhead'
      rw [hC]
      exact ⟨rfl, trivial⟩
  · simp only [Function.update_of_ne heq] at hhead'
    exact h.list r' head' hhead'

end LinkView

-- ============================================================================
-- What the primitive writes do to the links
-- ============================================================================

namespace Ledger

variable {l : Ledger} {account index : Nat} {c : Intrusive.Chain Nat}

@[simp] theorem links_debugAssert {holds : Bool} : (l.debugAssert holds).links = l.links := rfl

/-- An assignment that writes no end of a chain leaves the links alone. -/
theorem links_modifyAccount_of_ends {f : MirroredBalance → MirroredBalance}
    (hf : ∀ m, ((f m).expiryHead, (f m).expiryTail) = (m.expiryHead, m.expiryTail)) :
    (l.modifyAccount account f).links = l.links := by
  ext1
  case ends =>
    funext a
    simp only [links, account_modifyAccount]
    split <;> simp [Function.comp_def, hf]
  all_goals rfl

@[simp] theorem links_lowerReserved {amount : Nat} :
    (l.lowerReserved account amount).links = l.links := by
  rw [lowerReserved, links_debugAssert]
  exact links_modifyAccount_of_ends fun _ => rfl

@[simp] theorem links_lowerCommitted (account amount : Nat) :
    (l.lowerCommitted account amount).links = l.links := by
  rw [lowerCommitted, links_debugAssert]
  exact links_modifyAccount_of_ends fun _ => rfl

theorem links_modifyAccount {f : MirroredBalance → MirroredBalance} (g : Link × Link → Link × Link)
    (hf : ∀ m, ((f m).expiryHead, (f m).expiryTail) = g (m.expiryHead, m.expiryTail)) :
    (l.modifyAccount account f).links =
      { l.links with
        ends := fun a => if a = account then (l.links.ends a).map g else l.links.ends a } := by
  ext1
  case ends =>
    funext a
    simp only [links, account_modifyAccount]
    split <;> simp [Function.comp_def, hf]
  all_goals rfl

theorem links_modifyReservationAt {f : Reservation → Reservation}
    (hf : ∀ r, (f r).toClaim = r.toClaim) (g : Link × Link → Link × Link)
    (hg : ∀ r, (f r).neighbours = g r.neighbours) :
    (l.modifyReservationAt index f).links =
      { l.links with
        node := fun i => if i = index then (l.links.node i).map g else l.links.node i } := by
  ext1
  case node =>
    funext i
    simp only [links, reservationAt_modifyReservationAt]
    split <;> simp [Function.comp_def, hg]
  case claim =>
    funext i
    simp only [links, reservationAt_modifyReservationAt]
    split <;> simp [Function.comp_def, hf]
  all_goals rfl

@[simp] theorem links_modifyQuote {quote : QuoteIdx} (f : Quote → Quote) :
    (l.modifyQuote quote f).links = l.links :=
  rfl

/-- An assignment that keeps the committed list leaves the links alone. -/
theorem links_modifyRequest {request : ReqIdx} {f : Request → Request}
    (hf : ∀ r, (f r).committedHead = r.committedHead) :
    (l.modifyRequest request f).links = l.links := by
  ext1
  case listHead =>
    funext r
    simp only [links, Ledger.modifyRequest, Ledger.request, Slab.get_modify]
    split
    next h => simp [h, Function.comp_def, hf]
    next => rfl
  all_goals rfl

@[simp] theorem links_setOwnerClaim {owner : ResOwner} {claim : Option ResIdx} :
    (l.setOwnerClaim owner claim).links = l.links := by
  cases owner with
  | quote q => rfl
  | request r =>
      simp only [setOwnerClaim, links_debugAssert]
      exact links_modifyRequest (f := fun r => r.setClaim claim) fun _ => rfl

theorem links_remove {claim : ResIdx} (h : (l.reservation claim).isSome) :
    ({ l with reservations := (l.reservations.remove claim).2 }).links =
      l.links.dropSlot claim.index := by
  ext1
  case node =>
    funext i
    simp only [links, reservationAt, LinkView.dropSlot, Slab.valueAt_remove h,
      Function.update_apply]
    split <;> rfl
  case claim =>
    funext i
    simp only [links, reservationAt, LinkView.dropSlot, Slab.valueAt_remove h,
      Function.update_apply]
    split <;> rfl
  all_goals rfl

end Ledger

end RfqSettlement
