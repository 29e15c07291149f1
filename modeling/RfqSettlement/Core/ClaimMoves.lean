/-
  RfqSettlement.Core.ClaimMoves

  Where the claims of a market come from: a claim stays under its handle until it
  goes, and a new one is within the mirrored balance of its account.
-/

import RfqSettlement.Core.MarketMoves

namespace RfqSettlement

namespace Market

variable {m m' : Market} {scope : Scope} {now : Nat} {c h : ResIdx} {k k' : Claim} {r : ReqIdx}
  {held : Option (ResIdx × Claim)} {owner : ResOwner}

/-- `k'` is what became of `k`: itself, or committed by an accept. -/
structure Becomes (scope : Scope) (k k' : Claim) : Prop where
  owner : k'.owner = k.owner
  account : k'.account = k.account
  status : k' = k ∨ ∃ r e, scope = .filling r ∧ k.status = .reserved e ∧ k'.status = .committed r

theorem Becomes.refl (scope : Scope) (k : Claim) : Becomes scope k k := ⟨rfl, rfl, .inl rfl⟩

theorem Becomes.trans {k'' : Claim} (hfirst : Becomes scope k k') (hsecond : Becomes scope k' k'') :
    Becomes scope k k'' := by
  refine ⟨hsecond.owner.trans hfirst.owner, hsecond.account.trans hfirst.account, ?_⟩
  rcases hsecond.status with rfl | ⟨r, e, hscope, hreserved, hcommitted⟩
  · exact hfirst.status
  · rcases hfirst.status with rfl | ⟨r', -, -, -, hcommitted'⟩
    · exact .inr ⟨r, e, hscope, hreserved, hcommitted⟩
    · rw [hcommitted'] at hreserved
      cases hreserved

/-- `k` came in under a scope that opens, and within its account's mirrored balance. -/
structure Enters (scope : Scope) (m' : Market) (k : Claim) : Prop where
  opens : scope.Opens
  covered : ∀ t, m'.totals k.account = some t → t.claimed ≤ t.free

theorem claims_free : (m.free h k).claims c = if c = h then none else m.claims c := by
  simp only [free, dropClaim, modifyTotals, Function.update_apply]

theorem claims_discharge : (m.discharge h k).claims c = if c = h then none else m.claims c := by
  simp only [discharge, dropClaim, modifyTotals, Function.update_apply]

theorem claims_reserve : (m.reserve h k).claims c = if c = h then some k else m.claims c := by
  simp only [reserve, putClaim, modifyTotals, Function.update_apply]

theorem claims_commit {keep : Nat} :
    (m.commit h k r keep).claims c = if c = h then some (k.committedAs r keep) else m.claims c := by
  simp only [commit, putClaim, dropClaim, modifyTotals, Function.update_apply]
  split <;> rfl

/-- A claim there after letting one go was there before. -/
theorem claims_of_letGo (hk : (m.letGo held).claims c = some k) : m.claims c = some k := by
  cases held with
  | none => exact hk
  | some x =>
      have hfree : (m.free x.1 x.2).claims c = some k := hk
      rw [claims_free] at hfree
      split at hfree
      · cases hfree
      · exact hfree

/-- A claim there after a commit was there before, or is the one committed. -/
theorem claims_of_commit {keep : Nat} (hheld : m.Reserved owner h k)
    (hscope : scope = .filling r) (hk : (m.commit h k r keep).claims c = some k') :
    ∃ k₀, m.claims c = some k₀ ∧ Becomes scope k₀ k' := by
  rw [claims_commit] at hk
  split at hk
  next heq =>
    obtain ⟨e, hreserved⟩ := hheld.status
    obtain rfl := Option.some.inj hk
    exact ⟨k, heq ▸ hheld.claim, rfl, rfl, .inr ⟨r, e, hscope, hreserved, rfl⟩⟩
  next => exact ⟨k', hk, .refl scope k'⟩

theorem claims_of_pledge (hheld : m.Backing owner held) (hscope : scope = .filling r)
    (hk : (m.pledge r held).claims c = some k') :
    ∃ k₀, m.claims c = some k₀ ∧ Becomes scope k₀ k' := by
  cases held with
  | none => exact ⟨k', hk, .refl scope k'⟩
  | some x => exact claims_of_commit hheld hscope hk

theorem covered_of_reserve {t t' : Totals} {k : Claim} (hadm : t.Admits k.amount)
    (ht : m.totals k.account = some t) (ht' : (m.reserve h k).totals k.account = some t') :
    t'.claimed ≤ t'.free := by
  simp only [reserve, putClaim, modifyTotals, Function.update_self, ht, Option.map_some,
    Option.some.injEq] at ht'
  have := hadm.covered
  rw [← ht']
  simp only [Totals.claimed]
  omega

theorem Step.claim (hstep : Step now scope m m') (hk : m'.claims c = some k') :
    (∃ k, m.claims c = some k ∧ Becomes scope k k') ∨ Enters scope m' k' := by
  have hsame : ∀ {k'}, m.claims c = some k' →
      (∃ k, m.claims c = some k ∧ Becomes scope k k') ∨ Enters scope m' k' :=
    fun hk => .inl ⟨_, hk, .refl scope _⟩
  cases hstep with
  | mirror => exact hsame hk
  | expire =>
      rw [claims_free] at hk
      split at hk
      · cases hk
      · exact hsame hk
  | @openAuction r _ a _ hscope hr hh hstate hfair ht hadm =>
      rw [claims_reserve] at hk
      split at hk
      next =>
        obtain rfl := Option.some.inj hk
        exact .inr ⟨hscope, fun t' ht' => covered_of_reserve (m := m.setAuction r a)
            (k := ⟨a.requester, a.total, .request r, .reserved a.deadline⟩) hadm ht ht'⟩
      next => exact hsame hk
  | @openOffer q _ o _ _ _ hscope hq hh hstate ha hopened hleg hsize hprice ht hadm =>
      rw [claims_reserve] at hk
      split at hk
      next =>
        obtain rfl := Option.some.inj hk
        exact .inr ⟨hscope, fun t' ht' => covered_of_reserve (m := m.setOffer q (some o))
            (k := ⟨o.maker, _, .quote q, .reserved o.expiresAt⟩) hadm ht ht'⟩
      next => exact hsame hk
  | withdraw => exact hsame (claims_of_letGo hk)
  | consume hscope ho hstate ha hopened hheld => exact .inl (claims_of_pledge hheld hscope hk)
  | settle hscope ha hopened hheld hkeep => exact .inl (claims_of_commit hheld hscope hk)
  | reject => exact hsame (claims_of_letGo hk)
  | discharge =>
      rw [claims_discharge] at hk
      split at hk
      · cases hk
      · exact hsame hk
  | resolve => exact hsame hk
  | close => exact hsame hk

/-- A scope that opens mirrors nothing, and so a covered account stays covered. -/
theorem TotalsMove.covered {account : Nat} {t t' : Totals} (hmove : TotalsMove scope account t t')
    (hopens : scope.Opens) (hcovered : t.claimed ≤ t.free) : t'.claimed ≤ t'.free := by
  rcases hmove.claimed with hle | ⟨hle, -⟩
  · rcases hmove.free with heq | hcredit
    · omega
    · rw [hcredit] at hopens
      cases hopens
  · exact hle

theorem Step.totals_isSome {x : Nat} (hstep : Step now scope m m') :
    (m'.totals x).isSome = (m.totals x).isSome := by
  have hmodify : ∀ (m : Market) (account : Nat) (f : Totals → Totals),
      ((m.modifyTotals account f).totals x).isSome = (m.totals x).isSome := by
    intro m account f
    simp only [modifyTotals, Function.update_apply]
    split
    next heq => rw [heq, Option.isSome_map]
    next => rfl
  have hletGo : ∀ held, ((m.letGo held).totals x).isSome = (m.totals x).isSome := by
    intro held
    cases held with
    | none => rfl
    | some y => exact hmodify m _ _
  cases hstep with
  | mirror => exact hmodify m _ _
  | expire => exact hmodify m _ _
  | openAuction => exact hmodify (m.setAuction _ _) _ _
  | openOffer => exact hmodify (m.setOffer _ _) _ _
  | withdraw => exact hletGo _
  | @consume _ _ _ held =>
      cases held with
      | none => rfl
      | some y => exact hmodify m _ _
  | settle => exact hmodify m _ _
  | reject => exact hletGo _
  | discharge => exact hmodify m _ _
  | resolve => rfl
  | close => rfl

/-- No command makes an account known or unknown. -/
theorem Steps.totals_isSome {x : Nat} (hsteps : Steps now scope m m') :
    (m'.totals x).isSome = (m.totals x).isSome := by
  induction hsteps with
  | refl => rfl
  | tail _ hstep ih => exact hstep.totals_isSome.trans ih

/-- Within one command a claim is what became of one under the same handle, or came in
    covered. -/
theorem Steps.claim (hsteps : Steps now scope m m') (hk : m'.claims c = some k') :
    (∃ k, m.claims c = some k ∧ Becomes scope k k') ∨ Enters scope m' k' := by
  induction hsteps generalizing k' with
  | refl => exact .inl ⟨k', hk, .refl scope k'⟩
  | tail _ hstep ih =>
      rcases hstep.claim hk with ⟨k₁, hk₁, hbecomes⟩ | henters
      · rcases ih hk₁ with ⟨k, hk, hbecomes₁⟩ | henters
        · exact .inl ⟨k, hk, hbecomes₁.trans hbecomes⟩
        · refine .inr ⟨henters.opens, fun t ht => ?_⟩
          rw [hbecomes.account] at ht
          obtain ⟨t₁, ht₁⟩ := Option.isSome_iff_exists.mp
            (hstep.totals_isSome.symm.trans (by rw [ht]; rfl))
          obtain ⟨t', ht', hmove⟩ := hstep.totals ht₁
          obtain rfl := Option.some.inj (ht.symm.trans ht')
          exact hmove.covered henters.opens (henters.covered t₁ ht₁)
      · exact .inr henters

/-- Where nothing opens and nothing is filled, a claim was there before. -/
theorem Steps.claim_of_closed (hsteps : Steps now scope m m') (hopens : ¬ scope.Opens)
    (hfilling : ∀ r, scope ≠ .filling r) (hk : m'.claims c = some k) : m.claims c = some k := by
  rcases hsteps.claim hk with ⟨k₀, hk₀, hbecomes⟩ | henters
  · rcases hbecomes.status with rfl | ⟨r, -, hscope, -, -⟩
    · exact hk₀
    · exact absurd hscope (hfilling r)
  · exact absurd henters.opens hopens

end Market

end RfqSettlement
