/-
  RfqSettlement.Core.Balance

  What the ledger promises about its book, and the ways a claim can come, move
  or go.

  `Book.Balanced` says that the stored totals are the sums of the claims and
  that claim and owner name each other.  Reserving, freeing, committing and
  discharging a claim keep it, and so does any write that leaves claims and
  totals alone.
-/

import RfqSettlement.Core.Book

namespace RfqSettlement

namespace Book

/-- The stored totals are the sums of the claims, every claim is on a known
    account and a known list, and claim and owner name each other. -/
structure Balanced (b : Book) : Prop where
  reserved : ∀ a t, b.totals a = some t → t.reserved = b.sum (Claim.reservedBy a)
  committed : ∀ a t, b.totals a = some t → t.committed = b.sum (Claim.committedBy a)
  bounded : ∀ a t, b.totals a = some t → t.reserved + t.committed ≤ u64Max
  known : ∀ h k, b.claims h = some k → (b.totals k.account).isSome
  listed : ∀ h k r, b.claims h = some k → k.status = .committed r → (b.requests r).isSome
  held : ∀ h k, b.claims h = some k → b.ownerClaim k.owner = some (some h)
  holder : ∀ owner h, b.ownerClaim owner = some (some h) →
    ∃ k, b.claims h = some k ∧ k.owner = owner

variable {b : Book} {owner : ResOwner} {claim h : ResIdx} {k k' : Claim} {account a : Nat}
  {request : ReqIdx} {keep e : Nat} {t : Totals}

-- ============================================================================
-- A claim goes
-- ============================================================================

/-- Claims other than the one dropped keep their owners. -/
theorem Balanced.held_drop (hb : b.Balanced) (hk : b.claims claim = some k) (hne : h ≠ claim)
    (hk' : b.claims h = some k') :
    (b.setOwnerClaim k.owner none).ownerClaim k'.owner = some (some h) := by
  have hheld := hb.held h k' hk'
  rw [ownerClaim_setOwnerClaim, if_neg, hheld]
  intro howner
  rw [howner, hb.held claim k hk] at hheld
  exact hne (by simpa using hheld.symm)

/-- Owners other than the one let go keep their claims. -/
theorem Balanced.holder_drop (hb : b.Balanced) (hk : b.claims claim = some k)
    (ho : (b.setOwnerClaim k.owner none).ownerClaim owner = some (some h)) :
    h ≠ claim ∧ ∃ k', b.claims h = some k' ∧ k'.owner = owner := by
  rw [ownerClaim_setOwnerClaim] at ho
  split at ho
  next => simp at ho
  next hne =>
    obtain ⟨k', hk', rfl⟩ := hb.holder _ _ ho
    refine ⟨?_, k', hk', rfl⟩
    rintro rfl
    rw [hk, Option.some.injEq] at hk'
    exact hne (by rw [hk'])

theorem totals_modifyTotals {f : Totals → Totals} :
    (b.modifyTotals account f).totals a =
      if a = account then (b.totals a).map f else b.totals a := by
  simp only [modifyTotals, Function.update_apply]
  split
  next heq => rw [heq]
  next => rfl

theorem isSome_totals_modifyTotals {f : Totals → Totals} :
    ((b.modifyTotals account f).totals a).isSome = (b.totals a).isSome := by
  rw [totals_modifyTotals]
  split <;> simp

/-- Dropping a claim and its amount from the total it counts towards. -/
theorem Balanced.drop (hb : b.Balanced) (hk : b.claims claim = some k) (f : Totals → Totals)
    (hres : ∀ t, b.totals k.account = some t →
      (f t).reserved = t.reserved - Claim.reservedBy k.account k)
    (hcom : ∀ t, b.totals k.account = some t →
      (f t).committed = t.committed - Claim.committedBy k.account k) :
    (((b.modifyTotals k.account f).setOwnerClaim k.owner none).dropClaim claim k).Balanced := by
  have hother : ∀ a, a ≠ k.account → Claim.reservedBy a k = 0 ∧ Claim.committedBy a k = 0 := by
    intro a ha
    unfold Claim.reservedBy Claim.committedBy
    cases k.status <;> simp [Ne.symm ha]
  have htotals : ∀ a t, (b.modifyTotals k.account f).totals a = some t →
      ∃ t₀, b.totals a = some t₀ ∧ t.reserved = t₀.reserved - Claim.reservedBy a k ∧
        t.committed = t₀.committed - Claim.committedBy a k := by
    intro a t ht
    rw [totals_modifyTotals] at ht
    split at ht
    next heq =>
      subst heq
      obtain ⟨t₀, ht₀, rfl⟩ := Option.map_eq_some_iff.mp ht
      exact ⟨t₀, ht₀, hres t₀ ht₀, hcom t₀ ht₀⟩
    next hne =>
      obtain ⟨hr, hc⟩ := hother a hne
      exact ⟨t, ht, by rw [hr]; rfl, by rw [hc]; rfl⟩
  have howner : ∀ o, ((b.modifyTotals k.account f).setOwnerClaim k.owner none).ownerClaim o =
      (b.setOwnerClaim k.owner none).ownerClaim o := by
    intro o
    simp only [ownerClaim_setOwnerClaim, ownerClaim_modifyTotals]
  refine ⟨?_, ?_, ?_, ?_, ?_, ?_, ?_⟩
  · intro a t ht
    obtain ⟨t₀, ht₀, hr, -⟩ := htotals a t (by simpa [dropClaim] using ht)
    rw [hr, hb.reserved a t₀ ht₀]
    simp [dropClaim, modifyTotals]
  · intro a t ht
    obtain ⟨t₀, ht₀, -, hc⟩ := htotals a t (by simpa [dropClaim] using ht)
    rw [hc, hb.committed a t₀ ht₀]
    simp [dropClaim, modifyTotals]
  · intro a t ht
    obtain ⟨t₀, ht₀, hr, hc⟩ := htotals a t (by simpa [dropClaim] using ht)
    have := hb.bounded a t₀ ht₀
    omega
  · intro h k' hk'
    simp only [dropClaim, claims_setOwnerClaim, Function.update_apply] at hk'
    split at hk'
    · cases hk'
    · simp only [dropClaim, totals_setOwnerClaim, isSome_totals_modifyTotals]
      exact hb.known h k' hk'
  · intro h k' r hk' hs
    simp only [dropClaim, claims_setOwnerClaim, Function.update_apply] at hk'
    split at hk'
    · cases hk'
    · simp only [dropClaim, isSome_requests_setOwnerClaim]
      exact hb.listed h k' r hk' hs
  · intro h k' hk'
    simp only [dropClaim, claims_setOwnerClaim, Function.update_apply] at hk'
    split at hk'
    · cases hk'
    next hne =>
      rw [ownerClaim_dropClaim, howner]
      exact hb.held_drop hk hne hk'
  · intro o h ho
    rw [ownerClaim_dropClaim, howner] at ho
    obtain ⟨hne, k', hk', rfl⟩ := hb.holder_drop hk ho
    refine ⟨k', ?_, rfl⟩
    simp only [dropClaim, claims_setOwnerClaim, Function.update_apply, if_neg hne]
    exact hk'

theorem Balanced.free (hb : b.Balanced) (hk : b.claims claim = some k)
    (hs : k.status = .reserved e) : (b.free claim k).Balanced := by
  refine hb.drop hk _ ?_ ?_
  · intro t _
    simp [Claim.reservedBy, hs]
  · intro t _
    simp [Claim.committedBy, hs]

theorem Balanced.discharge (hb : b.Balanced) (hk : b.claims claim = some k)
    (hs : k.status = .committed request) : (b.discharge claim k).Balanced := by
  refine hb.drop hk _ ?_ ?_
  · intro t _
    simp [Claim.reservedBy, hs]
  · intro t _
    simp [Claim.committedBy, hs]

-- ============================================================================
-- A claim comes
-- ============================================================================

theorem Balanced.reserve (hb : b.Balanced) (hfresh : b.claims claim = none)
    (howner : b.ownerClaim k.owner = some none) (hs : k.status = .reserved e)
    (ht : b.totals k.account = some t) (hbound : t.reserved + t.committed + k.amount ≤ u64Max) :
    (b.reserve claim k).Balanced := by
  have hother : ∀ a, a ≠ k.account → Claim.reservedBy a k = 0 := by
    intro a ha
    simp [Claim.reservedBy, hs, Ne.symm ha]
  have hself : Claim.reservedBy k.account k = k.amount := by simp [Claim.reservedBy, hs]
  have hcom : ∀ a, Claim.committedBy a k = 0 := fun a => by simp [Claim.committedBy, hs]
  have htotals : ∀ a t', (b.reserve claim k).totals a = some t' →
      ∃ t₀, b.totals a = some t₀ ∧ t'.reserved = t₀.reserved + Claim.reservedBy a k ∧
        t'.committed = t₀.committed ∧ t'.reserved + t'.committed ≤ u64Max := by
    intro a t' ht'
    have ht' : (b.modifyTotals k.account
        fun t => { t with reserved := t.reserved + k.amount }).totals a = some t' := by
      simpa [Book.reserve, putClaim] using ht'
    rw [totals_modifyTotals] at ht'
    split at ht'
    next heq =>
      subst heq
      obtain ⟨t₀, ht₀, rfl⟩ := Option.map_eq_some_iff.mp ht'
      rw [ht, Option.some.injEq] at ht₀
      subst ht₀
      exact ⟨t, ht, by rw [hself], rfl, by simp only; omega⟩
    next hne =>
      exact ⟨t', ht', by rw [hother a hne]; rfl, rfl, hb.bounded a t' ht'⟩
  have hclaims : ∀ h, (b.reserve claim k).claims h = if h = claim then some k else b.claims h := by
    intro h
    simp [Book.reserve, putClaim, modifyTotals, Function.update_apply]
  have howners : ∀ o, (b.reserve claim k).ownerClaim o =
      if o = k.owner then some (some claim) else b.ownerClaim o := by
    intro o
    simp [Book.reserve, ownerClaim_setOwnerClaim, howner]
  have hsum : ∀ f, (b.reserve claim k).sum f = b.sum f + f k := by
    intro f
    simp [Book.reserve, putClaim, modifyTotals]
  refine ⟨?_, ?_, ?_, ?_, ?_, ?_, ?_⟩
  · intro a t' ht'
    obtain ⟨t₀, ht₀, hr, -, -⟩ := htotals a t' ht'
    rw [hr, hsum, hb.reserved a t₀ ht₀]
  · intro a t' ht'
    obtain ⟨t₀, ht₀, -, hc, -⟩ := htotals a t' ht'
    rw [hc, hsum, hcom, hb.committed a t₀ ht₀, Nat.add_zero]
  · intro a t' ht'
    obtain ⟨t₀, -, -, -, hle⟩ := htotals a t' ht'
    exact hle
  · intro h k' hk'
    have hsome : ∀ a, ((b.reserve claim k).totals a).isSome = (b.totals a).isSome := fun a => by
      simp [Book.reserve, putClaim, isSome_totals_modifyTotals]
    rw [hsome]
    rw [hclaims] at hk'
    split at hk'
    next =>
      cases hk'
      simp [ht]
    next => exact hb.known h k' hk'
  · intro h k' r hk' hs'
    have hsome : ((b.reserve claim k).requests r).isSome = (b.requests r).isSome := by
      simp only [Book.reserve, putClaim, isSome_requests_setOwnerClaim]
      rfl
    rw [hsome]
    rw [hclaims] at hk'
    split at hk'
    next =>
      cases hk'
      simp [hs] at hs'
    next => exact hb.listed h k' r hk' hs'
  · intro h k' hk'
    rw [hclaims] at hk'
    rw [howners]
    split at hk'
    next heq =>
      cases hk'
      rw [if_pos rfl, heq]
    next hne =>
      have hheld := hb.held h k' hk'
      rw [if_neg, hheld]
      intro heq
      rw [heq, howner] at hheld
      simp at hheld
  · intro o h ho
    rw [howners] at ho
    split at ho
    next heq =>
      simp only [Option.some.injEq] at ho
      exact ⟨k, by rw [hclaims, if_pos ho.symm], heq.symm⟩
    next hne =>
      obtain ⟨k', hk', rfl⟩ := hb.holder o h ho
      refine ⟨k', ?_, rfl⟩
      rw [hclaims, if_neg, hk']
      rintro rfl
      rw [hfresh] at hk'
      cases hk'

-- ============================================================================
-- A claim moves
-- ============================================================================

theorem Balanced.commit (hb : b.Balanced) (hk : b.claims claim = some k)
    (hs : k.status = .reserved e) (hrequest : (b.requests request).isSome)
    (hkeep : keep ≤ k.amount)
    (hpart : ∀ t, b.totals k.account = some t → k.amount ≤ t.reserved) :
    (b.commit claim k request keep).Balanced := by
  have hres : ∀ a, Claim.reservedBy a k = if k.account = a then k.amount else 0 := by
    intro a
    simp [Claim.reservedBy, hs]
  have hcom : ∀ a, Claim.committedBy a k = 0 := fun a => by simp [Claim.committedBy, hs]
  have hres' : ∀ a, Claim.reservedBy a (k.committedAs request keep) = 0 := fun a => rfl
  have hcom' : ∀ a, Claim.committedBy a (k.committedAs request keep) =
      if k.account = a then keep else 0 := fun a => rfl
  have hsum : ∀ f, (b.commit claim k request keep).sum f =
      b.sum f - f k + f (k.committedAs request keep) := fun f => rfl
  have hclaims : ∀ h, (b.commit claim k request keep).claims h =
      if h = claim then some (k.committedAs request keep) else b.claims h := by
    intro h
    simp only [Book.commit, putClaim, dropClaim, modifyTotals, Function.update_apply]
    split <;> rfl
  have howner : ∀ o, (b.commit claim k request keep).ownerClaim o = b.ownerClaim o := by
    intro o
    simp [Book.commit]
  have htotals : ∀ a t', (b.commit claim k request keep).totals a = some t' →
      ∃ t, b.totals a = some t ∧ t'.reserved = t.reserved - Claim.reservedBy a k ∧
        t'.committed = t.committed + Claim.committedBy a (k.committedAs request keep) ∧
        t'.reserved + t'.committed ≤ u64Max := by
    intro a t' ht'
    have ht' : (b.modifyTotals k.account fun t =>
        { t with reserved := t.reserved - k.amount, committed := t.committed + keep }).totals a =
          some t' := ht'
    rw [totals_modifyTotals] at ht'
    split at ht'
    next heq =>
      subst heq
      obtain ⟨t, ht, rfl⟩ := Option.map_eq_some_iff.mp ht'
      have hle := hpart t ht
      have := hb.bounded _ t ht
      refine ⟨t, ht, by simp [hres], by simp [hcom'], ?_⟩
      simp only
      omega
    next hne =>
      exact ⟨t', ht', by simp [hres, Ne.symm hne], by simp [hcom', Ne.symm hne],
        hb.bounded a t' ht'⟩
  refine ⟨?_, ?_, ?_, ?_, ?_, ?_, ?_⟩
  · intro a t' ht'
    obtain ⟨t, ht, hr, -, -⟩ := htotals a t' ht'
    rw [hr, hsum, hres', hb.reserved a t ht, Nat.add_zero]
  · intro a t' ht'
    obtain ⟨t, ht, -, hc, -⟩ := htotals a t' ht'
    rw [hc, hsum, hcom, hb.committed a t ht, Nat.sub_zero]
  · intro a t' ht'
    obtain ⟨t, -, -, -, hle⟩ := htotals a t' ht'
    exact hle
  · intro h k' hk'
    have hsome : ∀ a, ((b.commit claim k request keep).totals a).isSome = (b.totals a).isSome :=
      fun a => isSome_totals_modifyTotals
    rw [hsome]
    rw [hclaims] at hk'
    split at hk'
    next =>
      cases hk'
      exact hb.known claim k hk
    next => exact hb.known h k' hk'
  · intro h k' r hk' hs'
    rw [hclaims] at hk'
    split at hk'
    next =>
      cases hk'
      simp only [Claim.committedAs, ClaimStatus.committed.injEq] at hs'
      subst hs'
      exact hrequest
    next => exact hb.listed h k' r hk' hs'
  · intro h k' hk'
    rw [howner]
    rw [hclaims] at hk'
    split at hk'
    next heq =>
      cases hk'
      rw [heq]
      exact hb.held claim k hk
    next => exact hb.held h k' hk'
  · intro o h ho
    rw [howner] at ho
    obtain ⟨k', hk', rfl⟩ := hb.holder o h ho
    rw [hclaims]
    split
    next heq =>
      rw [heq, hk, Option.some.injEq] at hk'
      exact ⟨_, rfl, by rw [← hk']; rfl⟩
    next => exact ⟨k', hk', rfl⟩

-- ============================================================================
-- Writes that leave claims alone
-- ============================================================================

/-- A book with the same claims, the same stored totals of them and the same
    owners holding them. -/
theorem Balanced.of_same {b' : Book} (hb : b.Balanced) (hclaims : b'.claims = b.claims)
    (hsum : b'.sum = b.sum)
    (htotals : ∀ a, (b'.totals a).map (fun t => (t.reserved, t.committed)) =
      (b.totals a).map fun t => (t.reserved, t.committed))
    (howner : ∀ o h, b'.ownerClaim o = some (some h) ↔ b.ownerClaim o = some (some h))
    (hlisted : ∀ h k r, b.claims h = some k → k.status = .committed r → (b'.requests r).isSome) :
    b'.Balanced := by
  have hback : ∀ a t', b'.totals a = some t' →
      ∃ t, b.totals a = some t ∧ t.reserved = t'.reserved ∧ t.committed = t'.committed := by
    intro a t' ht'
    have h := htotals a
    rw [ht', Option.map_some] at h
    obtain ⟨t, ht, heq⟩ := Option.map_eq_some_iff.mp h.symm
    simp only [Prod.mk.injEq] at heq
    exact ⟨t, ht, heq.1, heq.2⟩
  refine ⟨?_, ?_, ?_, ?_, ?_, ?_, ?_⟩
  · intro a t' ht'
    obtain ⟨t, ht, hr, -⟩ := hback a t' ht'
    rw [hsum, ← hr, hb.reserved a t ht]
  · intro a t' ht'
    obtain ⟨t, ht, -, hc⟩ := hback a t' ht'
    rw [hsum, ← hc, hb.committed a t ht]
  · intro a t' ht'
    obtain ⟨t, ht, hr, hc⟩ := hback a t' ht'
    rw [← hr, ← hc]
    exact hb.bounded a t ht
  · intro h k hk
    have := hb.known h k (hclaims ▸ hk)
    have hmap := congrArg Option.isSome (htotals k.account)
    simpa [this] using hmap
  · intro h k r hk hs
    exact hlisted h k r (hclaims ▸ hk) hs
  · intro h k hk
    exact (howner _ _).mpr (hb.held h k (hclaims ▸ hk))
  · intro o h ho
    obtain ⟨k, hk, hko⟩ := hb.holder o h ((howner _ _).mp ho)
    exact ⟨k, hclaims ▸ hk, hko⟩

/-- The mirror moves `free` only. -/
theorem Balanced.modifyTotals (hb : b.Balanced) {f : Totals → Totals}
    (hf : ∀ t, (f t).reserved = t.reserved ∧ (f t).committed = t.committed) :
    (b.modifyTotals account f).Balanced := by
  refine hb.of_same rfl rfl ?_ (fun o h => by rw [ownerClaim_modifyTotals]) hb.listed
  intro a
  rw [totals_modifyTotals]
  split
  next => simp [Function.comp_def, (hf _).1, (hf _).2]
  next => rfl

theorem Balanced.modifyQuote (hb : b.Balanced) {q : QuoteIdx} {f : Quote → Quote}
    (hf : ∀ r, (f r).claim = r.claim) : (b.modifyQuote q f).Balanced := by
  refine hb.of_same rfl rfl (fun a => rfl) ?_ hb.listed
  intro o h
  cases o with
  | quote q' =>
      simp only [Book.modifyQuote, ownerClaim, Function.update_apply]
      split
      next heq => simp [heq, hf]
      next => rfl
  | request r => rfl

theorem Balanced.modifyRequest (hb : b.Balanced) {r : ReqIdx} {f : Request → Request}
    (hf : ∀ q, (f q).claim = q.claim) : (b.modifyRequest r f).Balanced := by
  refine hb.of_same rfl rfl (fun a => rfl) ?_ ?_
  · intro o h
    cases o with
    | quote q => rfl
    | request r' =>
        simp only [Book.modifyRequest, ownerClaim, Function.update_apply]
        split
        next heq => simp [heq, hf]
        next => rfl
  · intro h k r' hk hs
    have := hb.listed h k r' hk hs
    simp only [Book.modifyRequest, Function.update_apply]
    split
    next heq => simpa [← heq] using this
    next => exact this

/-- A record that holds no claim comes, goes or is exchanged for another. -/
theorem Balanced.setQuote (hb : b.Balanced) {q : QuoteIdx} {new : Option Quote}
    (hold : ∀ r, b.quotes q = some r → r.claim = none)
    (hnew : ∀ r, new = some r → r.claim = none) : (b.setQuote q new).Balanced := by
  refine hb.of_same rfl rfl (fun a => rfl) ?_ hb.listed
  intro o h
  cases o with
  | quote q' =>
      simp only [Book.setQuote, ownerClaim, Function.update_apply]
      split
      next heq =>
        subst heq
        cases new <;> cases hq : b.quotes q' <;> simp_all
      next => rfl
  | request r => rfl

theorem Balanced.setRequest (hb : b.Balanced) {r : ReqIdx} {new : Option Request}
    (hold : ∀ q, b.requests r = some q → q.claim = none)
    (hnew : ∀ q, new = some q → q.claim = none)
    (hlisted : new = none → ∀ h k, b.claims h = some k → k.status ≠ .committed r) :
    (b.setRequest r new).Balanced := by
  refine hb.of_same rfl rfl (fun a => rfl) ?_ ?_
  · intro o h
    cases o with
    | quote q => rfl
    | request r' =>
        simp only [Book.setRequest, ownerClaim, Function.update_apply]
        split
        next heq =>
          subst heq
          cases new <;> cases hq : b.requests r' <;> simp_all
        next => rfl
  · intro h k r' hk hs
    simp only [Book.setRequest, Function.update_apply]
    split
    next heq =>
      subst heq
      cases new with
      | none => exact absurd hs (hlisted rfl h k hk)
      | some q => rfl
    next => exact hb.listed h k r' hk hs

end Book

end RfqSettlement
