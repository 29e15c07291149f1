/-
  RfqSettlement.Core.Coverage

  Which command may raise which account's claims.

  Capital is claimed in one place, the check a new claim has to pass, so a submission
  that goes through leaves its account covered, and nothing else raises anyone's claims:
  an accept moves an amount from one bucket to the other, a replacement lets go before it
  takes, a settlement only lets go.
-/

import RfqSettlement.Core.Inheritance
import RfqSettlement.Core.Standing
import RfqSettlement.Core.Timing

namespace RfqSettlement

-- ============================================================================
-- Totals that only fall
-- ============================================================================

/-- `t'` is `t` with claims gone. -/
structure Totals.Falls (t t' : Totals) : Prop where
  free : t'.free = t.free
  reserved : t'.reserved ≤ t.reserved
  committed : t'.committed ≤ t.committed

theorem Totals.Falls.refl (t : Totals) : t.Falls t := ⟨rfl, Nat.le_refl _, Nat.le_refl _⟩

theorem Totals.Falls.trans {t t' t'' : Totals} (h : t.Falls t') (h' : t'.Falls t'') : t.Falls t'' :=
  ⟨h'.free.trans h.free, h'.reserved.trans h.reserved, h'.committed.trans h.committed⟩

theorem Totals.Falls.claimed {t t' : Totals} (h : t.Falls t') : t'.claimed ≤ t.claimed :=
  Nat.add_le_add h.reserved h.committed

namespace Market

variable {m m' : Market} {now account : Nat} {r : ReqIdx} {t : Totals} {held : Option (ResIdx × Claim)}

theorem falls_modifyTotals {a : Nat} {f : Totals → Totals} (hf : ∀ t : Totals, t.Falls (f t))
    (ht : m.totals account = some t) : ∃ t', (m.modifyTotals a f).totals account = some t' ∧ t.Falls t' := by
  refine ⟨_, totals_modifyTotals f ht, ?_⟩
  split
  · exact hf t
  · exact .refl t

theorem falls_letGo (ht : m.totals account = some t) :
    ∃ t', (m.letGo held).totals account = some t' ∧ t.Falls t' := by
  cases held with
  | none => exact ⟨t, ht, .refl t⟩
  | some x =>
      exact falls_modifyTotals (fun t => ⟨rfl, Nat.sub_le _ _, Nat.le_refl _⟩) ht

theorem Step.falls (hstep : Step now (.resolving r) m m') (ht : m.totals account = some t) :
    ∃ t', m'.totals account = some t' ∧ t.Falls t' := by
  cases hstep with
  | expire hk hs he => exact falls_modifyTotals (fun t => ⟨rfl, Nat.sub_le _ _, Nat.le_refl _⟩) ht
  | discharge hscope hk hs =>
      exact falls_modifyTotals (fun t => ⟨rfl, Nat.le_refl _, Nat.sub_le _ _⟩) ht
  | resolve => exact ⟨t, ht, .refl t⟩
  | close => exact ⟨t, ht, .refl t⟩
  | mirror hscope => cases hscope
  | openAuction hscope => cases hscope
  | openOffer hscope => cases hscope
  | withdraw hscope => cases hscope
  | consume hscope => cases hscope
  | settle hscope => cases hscope
  | reject hscope => cases hscope

/-- A resolution only lets go, and so does normalisation. -/
theorem Steps.falls (hsteps : Steps now (.resolving r) m m') (ht : m.totals account = some t) :
    ∃ t', m'.totals account = some t' ∧ t.Falls t' := by
  induction hsteps with
  | refl => exact ⟨t, ht, .refl t⟩
  | tail _ hstep ih =>
      obtain ⟨t₁, ht₁, hfalls₁⟩ := ih
      obtain ⟨t₂, ht₂, hfalls₂⟩ := hstep.falls ht₁
      exact ⟨t₂, ht₂, hfalls₁.trans hfalls₂⟩

end Market

-- ============================================================================
-- New claims
-- ============================================================================

namespace Ledger

variable {l l' : Ledger} {amount account : Nat} {q : QuoteIdx} {r : ReqIdx} {c : ResIdx} {t : Totals}

theorem Intact.openQuoteReserving_book {record : Quote} (h : l.Intact) (hrecord : record.claim = none)
    (heq : l.openQuoteReserving record amount = (.ok (q, c), l')) :
    (∃ m, Admits l record.maker amount m) ∧
      l'.book = (l.book.setQuote q (some record)).reserve c
        ⟨record.maker, amount, .quote q, .reserved record.expiresAt⟩ := by
  by_cases hopen : CanOpenQuote l record.maker amount
  · obtain ⟨q', c', l'', heq', -, -, -, -, hbook⟩ := h.openQuoteReserving_ok hrecord hopen
    obtain ⟨⟨rfl, rfl⟩, rfl⟩ : (q' = q ∧ c' = c) ∧ l'' = l' := by simpa using heq'.symm.trans heq
    exact ⟨hopen.1, hbook⟩
  · obtain ⟨err, heq'⟩ := openQuoteReserving_error record amount hopen
    cases (congrArg Prod.fst heq').symm.trans (congrArg Prod.fst heq)

theorem Intact.openRequestReserving_book {record : Request} (h : l.Intact)
    (hrecord : record.claim = none) (hhead : record.committedHead = none)
    (heq : l.openRequestReserving record amount = (.ok (r, c), l')) :
    (∃ m, Admits l record.requester amount m) ∧ l.book.requests r = none ∧
      l'.book = (l.book.setRequest r (some record)).reserve c
        ⟨record.requester, amount, .request r, .reserved record.deadline⟩ := by
  by_cases hopen : CanOpenRequest l record.requester amount
  · obtain ⟨r', c', l'', heq', -, -, hfresh, -, hbook⟩ := h.openRequestReserving_ok hrecord hhead hopen
    obtain ⟨⟨rfl, rfl⟩, rfl⟩ : (r' = r ∧ c' = c) ∧ l'' = l' := by simpa using heq'.symm.trans heq
    exact ⟨hopen.1, hfresh, hbook⟩
  · obtain ⟨err, heq'⟩ : ∃ err, l.openRequestReserving record amount = (.error err, l) :=
      openRequestReserving_error hopen
    cases (congrArg Prod.fst heq').symm.trans (congrArg Prod.fst heq)

/-- A claim reserved raises its own account, which covers it, and no other. -/
theorem totals_reserve {b : Book} {k : Claim} {m : MirroredBalance} (hadm : Admits l k.account k.amount m)
    (hb : b.totals = l.book.totals) (ht : l.book.totals account = some t) :
    ∃ t', (b.reserve c k).totals account = some t' ∧ t'.free = t.free ∧
      (account = k.account → t'.claimed ≤ t'.free) ∧ (account ≠ k.account → t.Falls t') := by
  have htotals : (b.reserve c k).totals account =
      some (if account = k.account then { t with reserved := t.reserved + k.amount } else t) := by
    simp only [Book.reserve, Book.putClaim, Book.totals_setOwnerClaim, Book.modifyTotals,
      Function.update_apply, hb]
    split
    next heq => rw [← heq, ht, Option.map_some]
    next => exact ht
  refine ⟨_, htotals, ?_, fun heq => ?_, fun hne => ?_⟩
  · split <;> rfl
  · subst heq
    have hcovered := hadm.covered
    obtain rfl : m.totals = t := Option.some.inj ((book_totals hadm.account).symm.trans ht)
    rw [if_pos rfl]
    show m.reserved + k.amount + m.committed ≤ m.free
    omega
  · rw [if_neg hne]
    exact .refl t

theorem accounts_publishSelection {w : Work} {i now : Nat} :
    (w.publishSelection r i now).1.accounts = w.1.accounts := by
  unfold Work.publishSelection
  repeat' split
  all_goals rfl

theorem totals_of_accounts (h : l'.accounts = l.accounts) : l'.book.totals = l.book.totals := by
  funext a
  simp only [book, Ledger.account, h]

end Ledger

-- ============================================================================
-- Commands
-- ============================================================================

/-- The account whose capital a command asks to reserve. -/
def Command.claimant : Command → Option Nat
  | .submitRequest requester _ _ => some requester
  | .submitQuote maker _ _ _ _ _ => some maker
  | _ => none

namespace Engine

variable {e : Engine} {command : Command} {answer : Answer} {now account : Nat} {events : EventBuffer}
  {t t' : Totals} {config : Config}

/-- What a command may do to the totals `t` of an account. -/
structure Frames (command : Command) (answer : Answer) (account : Nat) (t t' : Totals) : Prop where
  free : t'.free = t.free ∨ answer.1 = .ok () ∧ command = .creditAccount account t'.free
  admitted : answer.1 = .ok () → command.claimant = some account → t'.claimed ≤ t'.free
  others : answer.1 = .ok () → ∀ a, command.claimant = some a → a ≠ account →
    t'.reserved ≤ t.reserved ∧ t'.committed ≤ t.committed
  rest : (answer.1 = .ok () → command.claimant = none) → t'.claimed ≤ t.claimed

/-- No claim is made. -/
theorem frames_of_rest (hclaimant : answer.1 = .ok () → command.claimant = none)
    (hfree : t'.free = t.free) (hclaimed : t'.claimed ≤ t.claimed) :
    Frames command answer account t t' where
  free := .inl hfree
  admitted hok hsome := by rw [hclaimant hok] at hsome; cases hsome
  others hok a hsome := by rw [hclaimant hok] at hsome; cases hsome
  rest _ := hclaimed

theorem frames_refused {err : EngineError} {e' : Engine} {b : EventBuffer} (h : t.Falls t') :
    Frames command (e'.refuse b err) account t t' :=
  frames_of_rest (fun hok => nomatch hok) h.free h.claimed

/-- Steps that open nothing and credit no one raise no claims. -/
theorem frames_of_steps {scope : Scope} {m' : Market} (hclaimant : command.claimant = none)
    (hsteps : Market.Steps now scope e.market m') (hopens : ¬ scope.Opens)
    (hcredit : ∀ account free, scope ≠ .crediting account free)
    (ht : e.market.totals account = some t) :
    ∃ t', m'.totals account = some t' ∧ Frames command answer account t t' := by
  obtain ⟨t', ht', hmove⟩ := hsteps.totals ht
  refine ⟨t', ht', frames_of_rest (fun _ => hclaimant) ?_ ?_⟩
  · rcases hmove.free with heq | heq
    · exact heq
    · exact absurd heq (hcredit _ _)
  · rcases hmove.claimed with hle | ⟨-, hopen⟩
    · exact hle
    · exact absurd hopen hopens

theorem frames_same {m' : Market} (hclaimant : command.claimant = none) (hm : m' = e.market)
    (ht : e.market.totals account = some t) :
    ∃ t', m'.totals account = some t' ∧ Frames command answer account t t' :=
  ⟨t, hm ▸ ht, frames_of_rest (fun _ => hclaimant) rfl (Nat.le_refl _)⟩

/-- A submission's new claim. -/
theorem frames_of_reserve {l₀ : Ledger} {m' : Market} {k : Claim} {m : MirroredBalance} {b : Book}
    {c : ResIdx} (hclaimant : command.claimant = some k.account)
    (hadm : Ledger.Admits l₀ k.account k.amount m) (hb : b.totals = l₀.book.totals)
    (hm' : m'.totals = (b.reserve c k).totals) (hok : answer.1 = .ok ())
    (hlet : ∃ t₀, l₀.book.totals account = some t₀ ∧ t.Falls t₀) :
    ∃ t', m'.totals account = some t' ∧ Frames command answer account t t' := by
  obtain ⟨t₀, ht₀, hfalls⟩ := hlet
  obtain ⟨t', ht', hfree, hcovered, hother⟩ := Ledger.totals_reserve (c := c) hadm hb ht₀
  rw [← hm'] at ht'
  refine ⟨t', ht', .inl (hfree.trans hfalls.free), fun _ hsome => ?_, fun _ a hsome hne => ?_,
    fun hnone => ?_⟩
  · exact hcovered (Option.some.inj (hsome.symm.trans hclaimant))
  · obtain rfl := Option.some.inj (hclaimant.symm.trans hsome)
    have hrest := hfalls.trans (hother hne.symm)
    exact ⟨hrest.reserved, hrest.committed⟩
  · rw [hnone hok] at hclaimant
    cases hclaimant

theorem Sane.frames_submitRequest {requester deadline : Nat} {specs : List LegSpec} (h : e.Sane)
    (ht : e.market.totals account = some t) :
    ∃ t', (e.submitRequest requester deadline specs now events).2.1.market.totals account = some t' ∧
      Frames (.submitRequest requester deadline specs)
        (e.submitRequest requester deadline specs now events) account t t' := by
  rcases h.submitRequest_cases with ⟨err, heq⟩ | ⟨total, r, c, l₂, hopen, heq⟩
  · rw [heq]
    exact ⟨t, ht, frames_refused (.refl t)⟩
  · obtain ⟨⟨m, hadm⟩, -, hbook⟩ := h.healthy.intact.openRequestReserving_book rfl rfl hopen
    rw [heq]
    have hreserved : l₂.market.totals = _ := congrArg Book.totals hbook
    exact frames_of_reserve rfl hadm (by rfl) hreserved rfl ⟨t, ht, .refl t⟩

theorem Sane.frames_submitQuote {maker i price size expiresAt : Nat} {r : ReqIdx} (h : e.Sane)
    (ht : e.market.totals account = some t) :
    ∃ t', (e.submitQuote maker r i price size expiresAt now events).2.1.market.totals account =
        some t' ∧
      Frames (.submitQuote maker r i price size expiresAt)
        (e.submitQuote maker r i price size expiresAt now events) account t t' := by
  rcases h.submitQuote_cases with ⟨err, heq⟩ |
    ⟨standing, contribution, y, leg, w₁, hc, rfl, hout⟩
  · rw [heq]
    exact ⟨t, ht, frames_refused (.refl t)⟩
  -- the quote replaced lets go of its claim first
  have hw := h.healthy.withdrawStanding rfl hc
  generalize withdrawStanding (e.ledger, events) maker r i standing = w₁ at hw hout
  have hlet : ∃ t₀, w₁.1.market.totals account = some t₀ ∧ t.Falls t₀ := by
    cases standing with
    | none =>
        rw [hw.untouched rfl]
        exact ⟨t, ht, .refl t⟩
    | some q =>
        obtain ⟨x, held, -, hret, -⟩ := hw.retired q rfl
        rw [hret.market]
        exact Market.falls_letGo ht
  rcases hout with ⟨err, heq⟩ | ⟨q, c, l₂, hopen, heq⟩
  · rw [heq]
    obtain ⟨t₀, ht₀, hfalls⟩ := hlet
    exact ⟨t₀, ht₀, frames_refused hfalls⟩
  · obtain ⟨⟨m, hadm⟩, hbook⟩ := hw.carried.healthy.intact.openQuoteReserving_book rfl hopen
    rw [heq]
    have hlinked : (Work.publishSelection (l₂.linkQuote r i q, w₁.2) r i now).1.accounts =
        l₂.accounts := Ledger.accounts_publishSelection
    have hreserved := (Ledger.totals_of_accounts hlinked).trans (congrArg Book.totals hbook)
    exact frames_of_reserve rfl hadm (by rfl) hreserved rfl hlet

theorem Sane.frames_perform (command : Command) (now : Nat) (events : EventBuffer) (h : e.Sane)
    (ht : e.market.totals account = some t) :
    ∃ t', (e.perform command now events).2.1.market.totals account = some t' ∧
      Frames command (e.perform command now events) account t t' := by
  cases command with
  | creditAccount a free =>
      simp only [Engine.perform, Ledger.applyMirrorUpdate]
      cases hm : e.ledger.account a with
      | none => exact ⟨t, ht, frames_refused (.refl t)⟩
      | some m =>
          have hcarried : Ledger.Carried e.config.maxQuotesPerLeg now (.crediting a free)
              (e.ledger, events) _ := h.applyMirrorUpdate a free
          obtain ⟨t', ht', hmove⟩ := hcarried.steps.totals ht
          refine ⟨t', ht', ?_, by rintro _ ⟨⟩, by rintro _ _ ⟨⟩, fun _ => ?_⟩
          · rcases hmove.free with heq | heq
            · exact .inl heq
            · obtain ⟨rfl, rfl⟩ := Scope.crediting.inj heq
              exact .inr ⟨rfl, rfl⟩
          · rcases hmove.claimed with hle | ⟨-, hopens⟩
            · exact hle
            · cases hopens
  | registerContract contract eventDate =>
      have hsame := market_registerContract e.ledger contract eventDate
      rw [Engine.perform]
      split
      next heq =>
        rw [heq] at hsame
        exact frames_same rfl hsame ht
      next heq =>
        rw [heq] at hsame
        exact frames_same rfl hsame ht
  | submitRequest requester deadline specs => exact h.frames_submitRequest ht
  | rejectRequest r =>
      rw [Engine.perform]
      rcases h.healthy.rejectRequest (r := r) h.config.quotesPerLeg with ⟨err, heq⟩ |
        ⟨w', heq, hcarried, -⟩
      · rw [heq]
        exact ⟨t, ht, frames_refused (.refl t)⟩
      · rw [heq]
        exact frames_of_steps rfl hcarried.steps (by simp [Scope.Opens]) (by simp) ht
  | submitQuote maker r i price size expiresAt => exact h.frames_submitQuote ht
  | cancelQuote q =>
      rw [Engine.perform]
      split <;> exact ⟨t, ht, frames_refused (.refl t)⟩
  | acceptRequest r expected =>
      rw [Engine.perform]
      rcases h.healthy.acceptRequest (r := r) rfl h.config.quotesPerLeg with ⟨err, heq⟩ |
        ⟨acc, fills, w', heq, -, haccepted⟩
      · rw [heq]
        exact ⟨t, ht, frames_refused (.refl t)⟩
      · rw [heq]
        exact frames_of_steps rfl haccepted.steps (by simp [Scope.Opens]) (by simp) ht
  | pollSettlement nonce status =>
      rw [Engine.perform]
      rcases h.healthy.pollSettlement with ⟨err, heq⟩ | ⟨b, heq, -, -⟩ |
        ⟨r, y, d, w', -, -, -, -, -, heq, hresolves⟩
      · rw [heq]
        exact ⟨t, ht, frames_refused (.refl t)⟩
      · rw [heq]
        exact frames_same rfl rfl ht
      · rw [heq]
        exact frames_of_steps rfl hresolves.carried.steps (by simp [Scope.Opens]) (by simp) ht
  | reportOracleStatus contract status =>
      rw [Engine.perform, reportOracleStatus]
      split
      · exact frames_same rfl rfl ht
      split
      · exact frames_same rfl rfl ht
      split
      · exact frames_same rfl rfl ht
      · exact frames_same rfl rfl ht
  | settleEscrow escrow contract =>
      rw [Engine.perform, settleEscrow]
      repeat' split
      all_goals exact frames_same rfl rfl ht

theorem Frames.of_falls {t₀ : Totals} (hfalls : t.Falls t₀) (h : Frames command answer account t₀ t') :
    Frames command answer account t t' where
  free := by
    rcases h.free with heq | hcredit
    · exact .inl (heq.trans hfalls.free)
    · exact .inr hcredit
  admitted := h.admitted
  others hok a hsome hne := by
    obtain ⟨hreserved, hcommitted⟩ := h.others hok a hsome hne
    exact ⟨hreserved.trans hfalls.reserved, hcommitted.trans hfalls.committed⟩
  rest hnone := (h.rest hnone).trans hfalls.claimed

/-- At any instants and whatever is credited: a submission that goes through leaves its
    account covered and raises nobody else's claims, any other command and any refusal
    raises nobody's, and only a credit that goes through moves `free`, its own account's. -/
theorem claims_framed (h : Reachable config e) (input : Input) {m : MirroredBalance}
    (hm : e.ledger.account account = some m) :
    ∃ m', (e.step input).ledger.account account = some m' ∧
      ((e.answer input).1 = .ok () → input.command.claimant = some account →
        m'.reserved + m'.committed ≤ m'.free) ∧
      ((e.answer input).1 = .ok () → ∀ a, input.command.claimant = some a → a ≠ account →
        m'.reserved ≤ m.reserved ∧ m'.committed ≤ m.committed) ∧
      (((e.answer input).1 = .ok () → input.command.claimant = none) →
        m'.reserved + m'.committed ≤ m.reserved + m.committed) ∧
      (m'.free = m.free ∨
        (e.answer input).1 = .ok () ∧ input.command = .creditAccount account m'.free) := by
  have hsane := sane_of_reachable h
  have hn := hsane.normalised input.command input.now
  obtain ⟨t₀, ht₀, hfalls⟩ := (hn.steps (.resolving ⟨0, 0⟩)).falls (Ledger.book_totals hm)
  obtain ⟨t', ht', hframes⟩ :=
    hn.sane.frames_perform input.command input.now (.withCapacity input.capacity) ht₀
  obtain ⟨m', hm', rfl⟩ := Option.map_eq_some_iff.mp ht'
  have hframes := Frames.of_falls hfalls hframes
  exact ⟨m', hm', hframes.admitted, hframes.others, hframes.rest, hframes.free⟩

/-- A maker credited more is covered right after replacing its quote. -/
theorem claims_framed_standing :
    ∃ m', ((standing.step ⟨.creditAccount 1 9000000, 3, 8⟩).step
        ⟨.submitQuote 1 ⟨0, 0⟩ 0 500000 2 40, 3, 8⟩).ledger.account 1 = some m' ∧
      m'.reserved + m'.committed ≤ m'.free := by
  have hcredited := reachable_standing.step ⟨.creditAccount 1 9000000, 3, 8⟩
  obtain ⟨m, hm⟩ : ∃ m, (standing.step ⟨.creditAccount 1 9000000, 3, 8⟩).ledger.account 1 = some m :=
    Option.isSome_iff_exists.mp (by decide +kernel)
  obtain ⟨m', hm', hcovered, -⟩ :=
    claims_framed hcredited ⟨.submitQuote 1 ⟨0, 0⟩ 0 500000 2 40, 3, 8⟩ hm
  exact ⟨m', hm', hcovered (by decide +kernel) rfl⟩

end Engine

end RfqSettlement
