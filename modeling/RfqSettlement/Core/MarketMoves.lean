/-
  RfqSettlement.Core.MarketMoves

  What the steps of one command can do: to an auction (`Steps.auction`), to an
  offer (`Steps.offer`), to the claims committed to a request (`Steps.pledged`)
  and to the totals of an account (`Steps.totals`).  The whole-run properties of
  the engine are read off these.
-/

import RfqSettlement.Core.Coherence

namespace RfqSettlement

namespace Market

variable {m m' : Market} {scope : Scope} {now : Nat} {h : ResIdx} {k : Claim} {q : QuoteIdx}
  {r : ReqIdx} {o : Offer} {a : Auction} {filled : Option ReqIdx}

-- ============================================================================
-- Auctions
-- ============================================================================

/-- How a command may move a request's state. -/
inductive Moves (scope : Scope) (r : ReqIdx) : RequestState → RequestState → Prop where
  | settle {deadline : Nat} (h : scope = .filling r) :
      Moves scope r .opened (.settling (Nonce.of r) deadline)
  | reject (h : scope = .rejecting r) : Moves scope r .opened .rejected
  | resolve {n : Nonce} {deadline : Nat} {st : RequestState} (h : scope = .resolving r)
      (hst : st = .escrowed ∨ st = .settlementFailed) : Moves scope r (.settling n deadline) st

/-- A command moves a request at most once. -/
theorem Moves.not_again {s s' s'' : RequestState} (h : Moves scope r s s') :
    ¬ Moves scope r s' s'' := by
  intro h'
  cases h with
  | settle h =>
      cases h' with
      | resolve h' _ => rw [h] at h'; cases h'
  | reject => cases h'
  | resolve h hst =>
      rcases hst with rfl | rfl <;> cases h'

theorem Step.auction (hstep : Step now scope m m') (ha : m.auctions r = some a) :
    ∃ st, m'.auctions r = some (a.withState st) ∧ (st = a.state ∨ Moves scope r a.state st) := by
  have hsame : ∀ {m' : Market}, m'.auctions r = m.auctions r →
      ∃ st, m'.auctions r = some (a.withState st) ∧ (st = a.state ∨ Moves scope r a.state st) :=
    fun heq => ⟨a.state, heq.trans ha, .inl rfl⟩
  have hset : ∀ {m' : Market} {r' : ReqIdx} {a' : Auction} {st : RequestState},
      m.auctions r' = some a' → m'.auctions = m.auctions → Moves scope r' a'.state st →
        ∃ st', (m'.setAuction r' (a'.withState st)).auctions r = some (a.withState st') ∧
          (st' = a.state ∨ Moves scope r a.state st') := by
    intro m' r' a' st ha' hm' hmoves
    simp only [setAuction, Function.update_apply]
    split
    next heq =>
      subst heq
      rw [ha, Option.some.injEq] at ha'
      subst ha'
      exact ⟨st, rfl, .inr hmoves⟩
    next => exact ⟨a.state, by rw [hm']; exact ha, .inl rfl⟩
  cases hstep with
  | mirror => exact hsame rfl
  | expire => exact hsame rfl
  | openAuction hscope hr hh hstate hfair ht hadm =>
      refine hsame (Function.update_of_ne ?_ _ _)
      rintro rfl
      rw [hr] at ha
      cases ha
  | openOffer => exact hsame rfl
  | withdraw => exact hsame (congrFun auctions_letGo r)
  | consume => exact hsame (congrFun auctions_pledge r)
  | settle hscope ha' hopened hheld hkeep => exact hset ha' rfl (hopened ▸ .settle hscope)
  | reject hscope ha' hopened hheld => exact hset ha' auctions_letGo (hopened ▸ .reject hscope)
  | discharge => exact hsame rfl
  | resolve hscope ha' hsettling hnone hst =>
      obtain ⟨n, d, hs⟩ := hsettling
      exact hset ha' rfl (hs ▸ .resolve hscope hst)
  | close => exact hsame rfl

/-- Within one command an auction keeps its legs and terms, and its state moves at
    most once. -/
theorem Steps.auction (hsteps : Steps now scope m m') (ha : m.auctions r = some a) :
    ∃ st, m'.auctions r = some (a.withState st) ∧ (st = a.state ∨ Moves scope r a.state st) := by
  induction hsteps with
  | refl => exact ⟨a.state, ha, .inl rfl⟩
  | tail _ hstep ih =>
      obtain ⟨st, hst, hmoves⟩ := ih
      obtain ⟨st', hst', hmoves'⟩ := hstep.auction hst
      refine ⟨st', hst', ?_⟩
      rcases hmoves with rfl | hmoves
      · exact hmoves'
      · rcases hmoves' with rfl | hmoves'
        · exact .inr hmoves
        · exact absurd hmoves' hmoves.not_again

theorem Step.auction_new (hstep : Step now scope m m') (hr : m.auctions r = none)
    (ha : m'.auctions r = some a) : a.state = .opened ∧ scope.Opens := by
  have hset : ∀ {m' : Market} {r' : ReqIdx} {a' : Auction} {st : RequestState},
      m.auctions r' = some a' → m'.auctions = m.auctions →
        (m'.setAuction r' (a'.withState st)).auctions r = none := by
    intro m' r' a' st ha' hm'
    simp only [setAuction, Function.update_apply]
    split
    next heq =>
      subst heq
      rw [hr] at ha'
      cases ha'
    next => rw [hm', hr]
  cases hstep with
  | openAuction hscope hr' hh hstate hfair ht hadm =>
      simp only [Market.reserve, Market.putClaim, Market.modifyTotals, Market.setAuction,
        Function.update_apply] at ha
      split at ha
      next =>
        rw [Option.some.injEq] at ha
        exact ⟨ha ▸ hstate, hscope⟩
      next => cases hr.symm.trans ha
  | settle hscope ha' hopened hheld hkeep => cases (hset ha' rfl).symm.trans ha
  | reject hscope ha' hopened hheld => cases (hset ha' auctions_letGo).symm.trans ha
  | resolve hscope ha' hsettling hnone hst => cases (hset ha' rfl).symm.trans ha
  | withdraw hscope ho hheld => cases ((congrFun auctions_letGo r).trans hr).symm.trans ha
  | consume hscope ho hstate ha' hopened hheld =>
      cases ((congrFun auctions_pledge r).trans hr).symm.trans ha
  | _ => cases hr.symm.trans ha

/-- A request a command brings is open. -/
theorem Steps.auction_new (hsteps : Steps now scope m m') (hr : m.auctions r = none)
    (ha : m'.auctions r = some a) : a.state = .opened ∧ scope.Opens := by
  induction hsteps generalizing a with
  | refl => cases hr.symm.trans ha
  | @tail m₁ m₂ _ hstep ih =>
      cases hprev : m₁.auctions r with
      | none => exact hstep.auction_new hprev ha
      | some a₁ =>
          obtain ⟨hopened, hopens⟩ := ih hprev
          obtain ⟨st, hst, heq | hmoves⟩ := hstep.auction hprev
          · rw [ha, Option.some.injEq] at hst
            exact ⟨by rw [hst, heq]; exact hopened, hopens⟩
          · rw [hopened] at hmoves
            cases hmoves with
            | settle h => rw [h] at hopens; cases hopens
            | reject h => rw [h] at hopens; cases hopens

-- ============================================================================
-- Offers
-- ============================================================================

theorem Step.offer (hstep : Step now scope m m') (ho : m.offers q = some o) :
    m'.offers q = some o ∨ scope.Withdraws q o ∨
      scope = .resolving o.request ∧ o.state = .consumed := by
  have hset : ∀ {m' : Market} {q' : QuoteIdx} {o' : Offer} {new : Option Offer},
      m.offers q' = some o' → m'.offers = m.offers →
        (scope.Withdraws q' o' ∨ scope = .resolving o'.request ∧ o'.state = .consumed) →
        (m'.setOffer q' new).offers q = some o ∨ scope.Withdraws q o ∨
          scope = .resolving o.request ∧ o.state = .consumed := by
    intro m' q' o' new ho' hm' hcause
    simp only [setOffer, Function.update_apply]
    split
    next heq =>
      subst heq
      rw [ho, Option.some.injEq] at ho'
      subst ho'
      exact .inr hcause
    next => exact .inl (by rw [hm', ho])
  cases hstep with
  | openOffer hscope hq hh hstate ha hopened hleg hsize hprice ht hadm =>
      refine .inl ((Function.update_of_ne ?_ _ _).trans ho)
      rintro rfl
      rw [hq] at ho
      cases ho
  | withdraw hscope ho' hheld => exact hset ho' offers_letGo (.inl hscope)
  | consume hscope ho' hstate ha hopened hheld =>
      refine hset ho' offers_pledge (.inl ?_)
      rw [hscope]
      exact rfl
  | close hscope ho' hstate hheld => exact hset ho' rfl (.inr ⟨hscope, hstate⟩)
  | reject hscope ha' hopened hheld => exact .inl ((congrFun offers_letGo q).trans ho)
  | _ => exact .inl ho

/-- Within one command an offer stands as it is, unless the command may withdraw
    it, or closes it after its request was resolved. -/
theorem Steps.offer (hsteps : Steps now scope m m') (ho : m.offers q = some o) :
    m'.offers q = some o ∨ scope.Withdraws q o ∨
      scope = .resolving o.request ∧ o.state = .consumed := by
  induction hsteps with
  | refl => exact .inl ho
  | tail _ hstep ih =>
      rcases ih with ho | hcause
      · exact hstep.offer ho
      · exact .inr hcause

-- ============================================================================
-- Claims committed to a request
-- ============================================================================

/-- `m'` has the claims committed to `r` that `m` has. -/
structure SamePledges (r : ReqIdx) (m m' : Market) : Prop where
  claims : ∀ h k, k.status = .committed r → (m'.claims h = some k ↔ m.claims h = some k)
  pledged : ∀ account, m'.pledged r account = m.pledged r account

theorem SamePledges.refl (r : ReqIdx) (m : Market) : SamePledges r m m :=
  ⟨fun _ _ _ => Iff.rfl, fun _ => rfl⟩

theorem SamePledges.trans {m'' : Market} (h : SamePledges r m m') (h' : SamePledges r m' m'') :
    SamePledges r m m'' :=
  ⟨fun claim k hs => (h'.claims claim k hs).trans (h.claims claim k hs),
    fun account => (h'.pledged account).trans (h.pledged account)⟩

theorem SamePledges.congr (hclaims : m'.claims = m.claims) (hsum : m'.sum = m.sum) :
    SamePledges r m m' :=
  ⟨fun _ _ _ => by rw [hclaims], fun account => by simp only [Market.pledged, hsum]⟩

theorem committedOn_eq_zero {account : Nat} (hs : k.status ≠ .committed r) :
    Claim.committedOn r account k = 0 := by
  simp [Claim.committedOn, hs]

theorem SamePledges.dropClaim (hk : m.claims h = some k) (hs : k.status ≠ .committed r) :
    SamePledges r m (m.dropClaim h k) where
  claims h' k' hs' := by
    simp only [Market.dropClaim, Function.update_apply]
    split
    next heq =>
      subst heq
      rw [hk]
      constructor
      · intro hnone
        cases hnone
      · intro heq
        rw [Option.some.injEq] at heq
        exact absurd (heq ▸ hs') hs
    next => exact Iff.rfl
  pledged account := by
    simp [Market.pledged, Market.dropClaim, committedOn_eq_zero hs]

theorem SamePledges.putClaim (hh : m.claims h = none) (hs : k.status ≠ .committed r) :
    SamePledges r m (m.putClaim h k) where
  claims h' k' hs' := by
    simp only [Market.putClaim, Function.update_apply]
    split
    next heq =>
      subst heq
      rw [hh]
      constructor
      · intro heq
        rw [Option.some.injEq] at heq
        exact absurd (heq ▸ hs') hs
      · intro hnone
        cases hnone
    next => exact Iff.rfl
  pledged account := by
    simp [Market.pledged, Market.putClaim, committedOn_eq_zero hs]

theorem SamePledges.modifyTotals (account : Nat) (f : Totals → Totals) :
    SamePledges r m (m.modifyTotals account f) :=
  .congr rfl rfl

theorem SamePledges.free {owner : ResOwner} (hk : m.Reserved owner h k) :
    SamePledges r m (m.free h k) := by
  obtain ⟨e, he⟩ := hk.status
  exact (SamePledges.modifyTotals (m := m) _ _).trans (.dropClaim hk.claim (by simp [he]))

theorem SamePledges.letGo {owner : ResOwner} {held : Option (ResIdx × Claim)}
    (hheld : m.Backing owner held) : SamePledges r m (m.letGo held) := by
  cases held with
  | none => exact .refl r m
  | some x => exact .free hheld

/-- A commit to another request. -/
theorem SamePledges.commit {owner : ResOwner} {r' : ReqIdx} {keep : Nat}
    (hk : m.Reserved owner h k) (hne : r' ≠ r) : SamePledges r m (m.commit h k r' keep) := by
  obtain ⟨e, he⟩ := hk.status
  have hdrop := (SamePledges.modifyTotals (r := r) (m := m) k.account
    fun t => { t with reserved := t.reserved - k.amount, committed := t.committed + keep }).trans
      (.dropClaim hk.claim (by simp [he]))
  refine hdrop.trans (.putClaim (by simp [Market.dropClaim]) ?_)
  simpa [Claim.committedAs] using hne

theorem SamePledges.pledge {owner : ResOwner} {r' : ReqIdx} {held : Option (ResIdx × Claim)}
    (hheld : m.Backing owner held) (hne : r' ≠ r) : SamePledges r m (m.pledge r' held) := by
  cases held with
  | none => exact .refl r m
  | some x => exact .commit hheld hne

theorem Step.pledged (hstep : Step now scope m m') (hresolving : scope ≠ .resolving r)
    (hfilling : scope ≠ .filling r) : SamePledges r m m' := by
  cases hstep with
  | mirror => exact .congr rfl rfl
  | expire hk hs he =>
      exact (SamePledges.modifyTotals (m := m) _ _).trans (.dropClaim hk (by simp [hs]))
  | openAuction hscope hr hh hstate hfair ht hadm =>
      refine (SamePledges.congr rfl rfl :
          SamePledges r m ((m.setAuction _ _).modifyTotals _ _)).trans
        (.putClaim hh ?_)
      intro hs
      cases hs
  | openOffer hscope hq hh hstate ha hopened hleg hsize hprice ht hadm =>
      refine (SamePledges.congr rfl rfl :
          SamePledges r m ((m.setOffer _ _).modifyTotals _ _)).trans
        (.putClaim hh ?_)
      intro hs
      cases hs
  | withdraw hscope ho hheld => exact (SamePledges.letGo hheld).trans (.congr rfl rfl)
  | consume hscope ho hstate ha hopened hheld =>
      refine (SamePledges.pledge hheld ?_).trans (.congr rfl rfl)
      rintro rfl
      exact hfilling hscope
  | settle hscope ha hopened hheld hkeep =>
      refine (SamePledges.commit hheld ?_).trans (.congr rfl rfl)
      rintro rfl
      exact hfilling hscope
  | reject hscope ha hopened hheld => exact (SamePledges.letGo hheld).trans (.congr rfl rfl)
  | discharge hscope hk hs =>
      refine (SamePledges.modifyTotals (m := m) _ _).trans (.dropClaim hk ?_)
      rw [hs]
      rintro heq
      cases heq
      exact hresolving hscope
  | resolve => exact .congr rfl rfl
  | close => exact .congr rfl rfl

/-- Only an accept of the request, or its resolution, touches the claims committed
    to it. -/
theorem Steps.pledged (hsteps : Steps now scope m m') (hresolving : scope ≠ .resolving r)
    (hfilling : scope ≠ .filling r) : SamePledges r m m' := by
  induction hsteps with
  | refl => exact .refl r _
  | tail _ hstep ih => exact ih.trans (hstep.pledged hresolving hfilling)

-- ============================================================================
-- Claims an accept adds
-- ============================================================================

/-- `m'` has the claims committed to `r` that `m` has, and `ks`. -/
structure Adds (r : ReqIdx) (m m' : Market) (ks : List Claim) : Prop where
  kept : ∀ h k, k.status = .committed r → m.claims h = some k → m'.claims h = some k
  only : ∀ h k, k.status = .committed r → m'.claims h = some k → m.claims h = some k ∨ k ∈ ks
  added : ∀ k ∈ ks, k.status = .committed r ∧ ∃ h, m'.claims h = some k
  pledged : ∀ account, m'.pledged r account =
    m.pledged r account + (ks.map (Claim.committedOn r account)).sum

theorem SamePledges.adds (h : SamePledges r m m') : Adds r m m' [] where
  kept claim k hs hk := (h.claims claim k hs).mpr hk
  only claim k hs hk := .inl ((h.claims claim k hs).mp hk)
  added := by simp
  pledged account := by simpa using h.pledged account

theorem Adds.trans {m'' : Market} {ks ks' : List Claim} (h : Adds r m m' ks)
    (h' : Adds r m' m'' ks') : Adds r m m'' (ks ++ ks') where
  kept claim k hs hk := h'.kept claim k hs (h.kept claim k hs hk)
  only claim k hs hk := by
    rcases h'.only claim k hs hk with hk | hk
    · rcases h.only claim k hs hk with hk | hk
      · exact .inl hk
      · exact .inr (List.mem_append.mpr (.inl hk))
    · exact .inr (List.mem_append.mpr (.inr hk))
  added k hk := by
    rcases List.mem_append.mp hk with hk | hk
    · obtain ⟨hs, claim, hclaim⟩ := h.added k hk
      exact ⟨hs, claim, h'.kept claim k hs hclaim⟩
    · exact h'.added k hk
  pledged account := by
    rw [h'.pledged, h.pledged, List.map_append, List.sum_append, Nat.add_assoc]

theorem Adds.commit {owner : ResOwner} (keep : Nat) (hk : m.Reserved owner h k) :
    Adds r m (m.commit h k r keep) [k.committedAs r keep] := by
  obtain ⟨e, he⟩ := hk.status
  have hclaims : ∀ h', (m.commit h k r keep).claims h' =
      if h' = h then some (k.committedAs r keep) else m.claims h' := by
    intro h'
    simp only [Market.commit, Market.putClaim, Market.dropClaim, Market.modifyTotals,
      Function.update_apply]
    split <;> rfl
  refine ⟨?_, ?_, ?_, ?_⟩
  · intro h' k' hs' hk'
    rw [hclaims, if_neg]
    · exact hk'
    rintro rfl
    rw [hk.claim, Option.some.injEq] at hk'
    rw [← hk', he] at hs'
    cases hs'
  · intro h' k' _ hk'
    rw [hclaims] at hk'
    split at hk'
    · rw [Option.some.injEq] at hk'
      exact .inr (by simp [hk'])
    · exact .inl hk'
  · intro k' hk'
    rw [List.mem_singleton] at hk'
    exact ⟨by rw [hk']; rfl, h, by rw [hclaims, if_pos rfl, hk']⟩
  · intro account
    have hzero : Claim.committedOn r account k = 0 := committedOn_eq_zero (by simp [he])
    simp [Market.pledged, Market.commit, Market.putClaim, Market.dropClaim, Market.modifyTotals,
      hzero]

-- ============================================================================
-- Totals
-- ============================================================================

theorem totals_modifyTotals {account x : Nat} {t : Totals} (f : Totals → Totals)
    (ht : m.totals x = some t) :
    (m.modifyTotals account f).totals x = some (if x = account then f t else t) := by
  simp only [modifyTotals, Function.update_apply]
  split
  next heq => rw [← heq, ht, Option.map_some]
  next => exact ht

/-- What a step leaves of an account's totals `t`. -/
structure TotalsMove (scope : Scope) (account : Nat) (t t' : Totals) : Prop where
  free : t'.free = t.free ∨ scope = .crediting account t'.free
  claimed : t'.claimed ≤ t.claimed ∨ t'.claimed ≤ t'.free ∧ scope.Opens

theorem TotalsMove.refl (scope : Scope) (account : Nat) (t : Totals) :
    TotalsMove scope account t t :=
  ⟨.inl rfl, .inl (Nat.le_refl _)⟩

theorem TotalsMove.trans {account : Nat} {t t' t'' : Totals} (h : TotalsMove scope account t t')
    (h' : TotalsMove scope account t' t'') : TotalsMove scope account t t'' := by
  refine ⟨?_, ?_⟩
  · rcases h'.free with heq | hcredit
    · rw [heq]
      exact h.free
    · exact .inr hcredit
  · rcases h'.claimed with hle' | hnew
    · rcases h.claimed with hle | ⟨hle, hopens⟩
      · exact .inl (hle'.trans hle)
      · rcases h'.free with heq | hcredit
        · exact .inr ⟨by omega, hopens⟩
        · rw [hcredit] at hopens
          cases hopens
    · exact .inr hnew

theorem Step.totals {x : Nat} {t : Totals} (hstep : Step now scope m m')
    (ht : m.totals x = some t) : ∃ t', m'.totals x = some t' ∧ TotalsMove scope x t t' := by
  have hmodify : ∀ {account : Nat} {f : Totals → Totals},
      (x = account → TotalsMove scope x t (f t)) →
        ∃ t', (m.modifyTotals account f).totals x = some t' ∧ TotalsMove scope x t t' := by
    intro account f hmove
    refine ⟨_, totals_modifyTotals f ht, ?_⟩
    split
    next heq => exact hmove heq
    next => exact .refl scope x t
  have hlower : ∀ {t' : Totals}, t'.free = t.free → t'.claimed ≤ t.claimed →
      TotalsMove scope x t t' := fun hf hc => ⟨.inl hf, .inl hc⟩
  have hcommit : ∀ {h : ResIdx} {k : Claim} {r : ReqIdx} {owner : ResOwner} {keep : Nat},
      m.Reserved owner h k → keep ≤ k.amount →
        ∃ t', (m.commit h k r keep).totals x = some t' ∧ TotalsMove scope x t t' := by
    intro h k r owner keep hk hkeep
    refine hmodify fun heq => hlower rfl ?_
    have := hk.counted t (heq ▸ ht)
    simp only [Totals.claimed]
    omega
  have hfree : ∀ {h : ResIdx} {k : Claim},
      ∃ t', (m.free h k).totals x = some t' ∧ TotalsMove scope x t t' := by
    intro h k
    refine hmodify fun _ => hlower rfl ?_
    simp only [Totals.claimed]
    omega
  have hreserve : ∀ {account amount : Nat} {t₀ : Totals}, scope.Opens →
      m.totals account = some t₀ → t₀.Admits amount →
        ∃ t', (m.modifyTotals account fun t => { t with reserved := t.reserved + amount }).totals x =
          some t' ∧ TotalsMove scope x t t' := by
    intro account amount t₀ hopens ht₀ hadm
    refine hmodify fun heq => ⟨.inl rfl, .inr ⟨?_, hopens⟩⟩
    rw [← heq, ht, Option.some.injEq] at ht₀
    subst ht₀
    have := hadm.covered
    simp only [Totals.claimed]
    omega
  cases hstep with
  | mirror hscope =>
      refine hmodify fun heq => ⟨.inr (by rw [heq]; exact hscope), .inl (Nat.le_refl _)⟩
  | expire hk hs he => exact hfree
  | openAuction hscope hr hh hstate hfair ht₀ hadm => exact hreserve hscope ht₀ hadm
  | openOffer hscope hq hh hstate ha hopened hleg hsize hprice ht₀ hadm =>
      exact hreserve hscope ht₀ hadm
  | @withdraw q o held hscope ho hheld =>
      cases held with
      | none => exact ⟨t, ht, .refl scope x t⟩
      | some y => exact hfree (h := y.1)
  | @consume q o a held hscope ho hstate ha hopened hheld =>
      cases held with
      | none => exact ⟨t, ht, .refl scope x t⟩
      | some y => exact hcommit (r := o.request) hheld (Nat.le_refl _)
  | @settle r a h k keep deadline hscope ha hopened hheld hkeep =>
      exact hcommit (r := r) hheld hkeep
  | @reject r a held hscope ha hopened hheld =>
      cases held with
      | none => exact ⟨t, ht, .refl scope x t⟩
      | some y => exact hfree (h := y.1)
  | discharge hscope hk hs =>
      refine hmodify fun _ => hlower rfl ?_
      simp only [Totals.claimed]
      omega
  | resolve => exact ⟨t, ht, .refl scope x t⟩
  | close => exact ⟨t, ht, .refl scope x t⟩

/-- Within one command the mirrored balance of an account changes only by a
    credit to it, and its claims never grow past that balance. -/
theorem Steps.totals {x : Nat} {t : Totals} (hsteps : Steps now scope m m')
    (ht : m.totals x = some t) : ∃ t', m'.totals x = some t' ∧ TotalsMove scope x t t' := by
  induction hsteps with
  | refl => exact ⟨t, ht, .refl scope x t⟩
  | tail _ hstep ih =>
      obtain ⟨t', ht', hmove⟩ := ih
      obtain ⟨t'', ht'', hmove'⟩ := hstep.totals ht'
      exact ⟨t'', ht'', hmove.trans hmove'⟩

end Market

end RfqSettlement
