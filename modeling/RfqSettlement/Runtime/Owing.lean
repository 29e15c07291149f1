/-
  RfqSettlement.Runtime.Owing

  Money custody has moved and the engine has not been told of.

  A bundle custody settled is owed until its answer is delivered: its claims still
  stand, and the balances behind them are already gone.  `Harness.owed` adds that up
  for an account, as it will be once some answers have been heard.  All claims of an
  account together pay for every bundle that awaits its answer.
-/

import RfqSettlement.Runtime.Agreement
import RfqSettlement.Chain.Postings

namespace RfqSettlement

-- ============================================================================
-- Awaiting an answer
-- ============================================================================

namespace Market

variable {m : Market} {b : Bundle}

/-- Whether the request of `b` is settling under its nonce. -/
def awaits (m : Market) (b : Bundle) : Bool :=
  (m.auctions b.basket).any fun a =>
    match a.state with
    | .settling nonce _ => decide (nonce = b.nonce)
    | _ => false

theorem awaits_iff : m.awaits b = true ↔
    ∃ a deadline, m.auctions b.basket = some a ∧ a.state = .settling b.nonce deadline := by
  unfold awaits
  rw [Option.any_eq_true]
  constructor
  · rintro ⟨a, ha, hstate⟩
    split at hstate
    next nonce deadline heq =>
      have hnonce : nonce = b.nonce := by simpa using hstate
      exact ⟨a, deadline, ha, hnonce ▸ heq⟩
    next => cases hstate
  · rintro ⟨a, deadline, ha, hstate⟩
    exact ⟨a, ha, by rw [hstate]; simp⟩

end Market

namespace Engine

variable {e e' : Engine} {b : Bundle} {bundles : List Bundle} {command : Command} {now : Nat}
  {commands : List Command} {resolved : Nonce → Option TxStatus}

/-- An answer that is delivered is awaited no more. -/
theorem Effect.not_awaits {status : TxStatus} (heffect : Effect now e e' bundles command)
    (hfate : b.Fate commands resolved e.market) (hterminal : status.isTerminal = true)
    (hcommand : command = .pollSettlement b.nonce status) : e'.market.awaits b = false := by
  rw [Bool.eq_false_iff]
  intro hawaits
  obtain ⟨a, deadline, ha, hstate⟩ := Market.awaits_iff.mp hawaits
  cases hfate with
  | awaits hauction hstate' =>
      rcases heffect.awaits hauction hstate' with ⟨-, -, hother⟩ | ⟨status', -, -, hauction'⟩
      · exact hother status hterminal hcommand
      · obtain rfl := Option.some.inj (ha.symm.trans hauction')
        cases status' <;> cases hstate
  | @answered _ status' hauction hstate' =>
      obtain rfl := Option.some.inj (ha.symm.trans (heffect.answered hauction hstate'))
      rw [hstate'] at hstate
      cases status' <;> cases hstate

/-- Until then it is awaited as before. -/
theorem Effect.awaits_eq (heffect : Effect now e e' bundles command)
    (hfate : b.Fate commands resolved e.market)
    (hother : ∀ status, status.isTerminal = true → command ≠ .pollSettlement b.nonce status) :
    e'.market.awaits b = e.market.awaits b := by
  have hsame : e'.market.auctions b.basket = e.market.auctions b.basket := by
    cases hfate with
    | awaits hauction hstate =>
        rcases heffect.awaits hauction hstate with ⟨hauction', -⟩ | ⟨status, hterminal, hcommand, -⟩
        · exact hauction'.trans hauction.symm
        · exact absurd hcommand (hother status hterminal)
    | answered hauction hstate => exact (heffect.answered hauction hstate).trans hauction.symm
  rw [Market.awaits, Market.awaits, hsame]

end Engine

-- ============================================================================
-- What is owed
-- ============================================================================

namespace Harness

variable {clocks : Clocks} {h h' : Harness} {commands commands' heard : List Command}
  {command : Command} {now account : Nat} {b : Bundle} {bundles : List Bundle}

/-- Custody settled `b`, and its answer is neither delivered nor among `heard`. -/
def owes (h : Harness) (heard : List Command) (b : Bundle) : Bool :=
  decide (h.custody.resolved b.nonce = some .settled) && h.engine.market.awaits b &&
    !decide (Command.pollSettlement b.nonce .settled ∈ heard)

/-- What `account` owes once `heard` is delivered too. -/
def owed (h : Harness) (heard : List Command) (account : Nat) : Nat :=
  (h.intents.map fun b => if h.owes heard b then b.due account else 0).sum

/-- The mirrored balance of `account` after more credits. -/
def lastCredit (account : Nat) : List Command → Nat → Nat
  | [], free => free
  | .creditAccount account' free' :: commands, free =>
    lastCredit account commands (if account' = account then free' else free)
  | _ :: commands, free => lastCredit account commands free

theorem owed_congr (hintents : h'.intents = h.intents)
    (howes : ∀ b ∈ h.intents, h'.owes commands' b = h.owes commands b) :
    h'.owed commands' account = h.owed commands account := by
  rw [owed, owed, hintents]
  refine congrArg List.sum (List.map_congr_left fun b hb => ?_)
  rw [howes b hb]

/-- Only an answer changes what is owed. -/
theorem owed_cons (h : Harness) (account : Nat) (heard : List Command)
    (hother : ∀ nonce, command ≠ .pollSettlement nonce .settled) :
    h.owed (command :: heard) account = h.owed heard account := by
  refine owed_congr rfl fun b _ => ?_
  have hne : Command.pollSettlement b.nonce .settled ≠ command := (hother b.nonce).symm
  simp [owes, hne]

/-- A command to the engine is heard. -/
theorem Agrees.owed_turn (hagrees : Agrees h commands)
    (heffect : Engine.Effect now h.engine h'.engine bundles command)
    (hcustody : h'.custody = h.custody) (hintents : h'.intents = h.intents ++ bundles)
    (hdelivered : ∀ x ∈ h'.commands, x ∈ h.commands ∨ x = command)
    (hanswer : ∀ nonce status, command = .pollSettlement nonce status → status.isTerminal = true →
      h.custody.resolved nonce = some status) (heard : List Command) (account : Nat) :
    h'.owed heard account = h.owed (command :: heard) account := by
  have hnew : (bundles.map fun b => if h'.owes heard b then b.due account else 0).sum = 0 := by
    refine List.sum_eq_zero fun n hn => ?_
    obtain ⟨b, hb, rfl⟩ := List.mem_map.mp hn
    obtain ⟨-, hfresh, -⟩ := hagrees.ordered heffect hb hdelivered
    have hnone := (hagrees.unformed hfresh).2
    have howes : h'.owes heard b = false := by
      simp [owes, hcustody, hnone]
    simp [howes]
  rw [owed, hintents, List.map_append, List.sum_append, hnew, Nat.add_zero, owed]
  refine congrArg List.sum (List.map_congr_left fun b hb => ?_)
  have hsame : h'.owes heard b = h.owes (command :: heard) b := by
    have hfate := hagrees.fate b hb
    by_cases hpoll : ∃ status, status.isTerminal = true ∧ command = .pollSettlement b.nonce status
    · obtain ⟨status, hterminal, hcommand⟩ := hpoll
      have hresolved := hanswer _ _ hcommand hterminal
      have hnot := heffect.not_awaits hfate hterminal hcommand
      rw [owes, owes, hcustody, hnot, hcommand, hresolved]
      cases status <;> simp
    · have hother : ∀ status, status.isTerminal = true → command ≠ .pollSettlement b.nonce status :=
        fun status hterminal hcommand => hpoll ⟨status, hterminal, hcommand⟩
      have hne : Command.pollSettlement b.nonce .settled ≠ command :=
        fun heq => hother .settled rfl heq.symm
      rw [owes, owes, hcustody, heffect.awaits_eq hfate hother]
      simp [hne]
  rw [hsame]

-- ============================================================================
-- What the claims pay for
-- ============================================================================

/-- Claims committed to different requests are different claims. -/
theorem sum_committedOn_le {bs : List Bundle} (hnodup : (bs.map Bundle.nonce).Nodup) (account : Nat)
    (k : Claim) :
    (bs.map fun b => k.committedOn b.basket account).sum ≤ k.heldBy account := by
  by_cases hone : ∃ b ∈ bs, k.status = .committed b.basket
  · obtain ⟨b, hb, hs⟩ := hone
    have hle : (bs.map fun b => k.committedOn b.basket account).sum ≤
        (bs.map fun _ => 0).sum + k.heldBy account := by
      refine List.sum_map_le_add hnodup hb ?_ fun x hx hne => ?_
      · rw [Nat.zero_add]
        exact k.committedOn_le_heldBy b.basket account
      · refine Nat.le_of_eq (Market.committedOn_eq_zero ?_)
        rw [hs]
        intro heq
        simp only [ClaimStatus.committed.injEq] at heq
        exact hne (congrArg Nonce.of heq).symm
    simpa using hle
  · have hzero : (bs.map fun b => k.committedOn b.basket account).sum = 0 := by
      refine List.sum_eq_zero fun n hn => ?_
      obtain ⟨b, hb, rfl⟩ := List.mem_map.mp hn
      exact Market.committedOn_eq_zero fun hs => hone ⟨b, hb, hs⟩
    rw [hzero]
    exact Nat.zero_le _

/-- Until custody answers it, a bundle awaits its answer with everything pledged. -/
theorem Agrees.unresolved (hagrees : Agrees h commands) (hb : b ∈ h.intents)
    (hnone : h.custody.resolved b.nonce = none) :
    h.engine.market.awaits b = true ∧ b.Pledged h.engine.market := by
  cases hagrees.fate b hb with
  | @awaits a deadline hauction hstate _ hpledged _ =>
      exact ⟨Market.awaits_iff.mpr ⟨a, deadline, hauction, hstate⟩, hpledged⟩
  | answered _ _ _ _ hresolved =>
      rw [hnone] at hresolved
      cases hresolved

/-- While its answer is awaited, what a bundle takes from an account is pledged to it. -/
theorem Agrees.pledged (hagrees : Agrees h commands) (hb : b ∈ h.intents)
    (hawaits : h.engine.market.awaits b = true) (account : Nat) :
    h.engine.market.pledged b.basket account = b.due account := by
  obtain ⟨a, deadline, ha, hstate⟩ := Market.awaits_iff.mp hawaits
  cases hagrees.fate b hb with
  | awaits _ _ _ hpledged => exact hpledged.pledged account
  | @answered _ status hauction hstate' =>
      obtain rfl := Option.some.inj (ha.symm.trans hauction)
      rw [hstate] at hstate'
      cases status <;> cases hstate'

/-- What is pledged to some bundles, claim by claim. -/
theorem sum_pledged (h : Harness) (bs : List Bundle) (account : Nat) :
    (bs.map fun x => h.engine.market.pledged x.basket account).sum =
      h.engine.market.sum fun k => (bs.map fun x => k.committedOn x.basket account).sum := by
  induction bs with
  | nil => exact (Ledger.book_sum_eq_zero fun _ _ _ => rfl).symm
  | cons x bs ih =>
      simp only [List.map_cons, List.sum_cons]
      rw [ih]
      have hadd := h.engine.ledger.sum_book_add (fun k => k.committedOn x.basket account)
        fun k => (bs.map fun x => k.committedOn x.basket account).sum
      exact hadd.symm

/-- An account's claims pay for all it owes, and for one bundle more that awaits its
    answer. -/
theorem Agrees.covers (hagrees : Agrees h commands) (hb : b ∈ h.intents)
    (hawaits : h.engine.market.awaits b = true) (hnot : h.owes heard b = false) (account : Nat) :
    b.due account + h.owed heard account ≤ h.engine.market.sum (Claim.heldBy account) := by
  have hall : (h.intents.map fun x => h.engine.market.pledged x.basket account).sum ≤
      h.engine.market.sum (Claim.heldBy account) := by
    rw [sum_pledged]
    exact Ledger.sum_book_le fun k => sum_committedOn_le hagrees.unique account k
  refine Nat.le_trans ?_ hall
  have hone := List.sum_map_ite_key hagrees.unique hb (b.due account)
  rw [owed, ← hone, ← List.sum_map_add]
  refine List.sum_le_sum fun x hx => ?_
  by_cases hkey : x.nonce = b.nonce
  · obtain rfl := List.inj_on_of_nodup_map hagrees.unique hx hb hkey
    rw [if_pos rfl, hnot, hagrees.pledged hx hawaits]
    simp
  · rw [if_neg hkey, Nat.zero_add]
    split
    next howes =>
      have hawaits : h.engine.market.awaits x = true := by
        simp only [owes, Bool.and_eq_true] at howes
        exact howes.1.2
      exact (hagrees.pledged hx hawaits account).ge
    next => exact Nat.zero_le _

/-- Of two sums of what is owed, one counts a single bundle more. -/
theorem Agrees.owed_le_add (hagrees : Agrees h commands) (hb : b ∈ h.intents)
    {status : TxStatus} :
    h.owed heard account ≤ h.owed (.pollSettlement b.nonce status :: heard) account + b.due account := by
  refine List.sum_map_le_add hagrees.unique hb ?_ fun x hx hne => Nat.le_of_eq ?_
  · split
    · exact Nat.le_add_left _ _
    · exact Nat.zero_le _
  · have hnonce : Command.pollSettlement x.nonce .settled ≠ .pollSettlement b.nonce status := by
      intro heq
      exact hne (Command.pollSettlement.inj heq).1
    have hsame : h.owes heard x = h.owes (.pollSettlement b.nonce status :: heard) x := by
      simp [owes, hnonce]
    rw [hsame]

/-- A bundle settled is owed, until its answer is heard. -/
theorem Agrees.owed_settle (hagrees : Agrees h commands) (hb : b ∈ h.intents)
    (hnone : h.custody.resolved b.nonce = none) (hengine : h'.engine = h.engine)
    (hintents : h'.intents = h.intents)
    (hresolved : h'.custody.resolved = Function.update h.custody.resolved b.nonce (some .settled))
    (hunheard : .pollSettlement b.nonce .settled ∉ heard) :
    h'.owed heard account = h.owed heard account + b.due account := by
  obtain ⟨hawaits, -⟩ := hagrees.unresolved hb hnone
  rw [owed, hintents, owed, ← List.sum_map_ite_key hagrees.unique hb (b.due account), ← List.sum_map_add]
  refine congrArg List.sum (List.map_congr_left fun x hx => ?_)
  by_cases hkey : x.nonce = b.nonce
  · obtain rfl := List.inj_on_of_nodup_map hagrees.unique hx hb hkey
    simp [owes, hresolved, hnone, hengine, hawaits, hunheard]
  · simp [owes, hresolved, hengine, hkey]

theorem owed_le_settle (hnone : h.custody.resolved b.nonce = none) (hengine : h'.engine = h.engine)
    (hintents : h'.intents = h.intents)
    (hresolved : h'.custody.resolved = Function.update h.custody.resolved b.nonce (some .settled)) :
    h.owed heard account ≤ h'.owed heard account := by
  rw [owed, owed, hintents]
  refine List.sum_le_sum fun x _ => ?_
  by_cases hkey : x.nonce = b.nonce
  · simp [owes, hkey, hnone]
  · refine Nat.le_of_eq ?_
    simp [owes, hresolved, hengine, hkey]

-- ============================================================================
-- The totals of an account after a command
-- ============================================================================

theorem lastCredit_append (account : Nat) (commands commands' : List Command) (free : Nat) :
    lastCredit account (commands ++ commands') free =
      lastCredit account commands' (lastCredit account commands free) := by
  induction commands generalizing free with
  | nil => rfl
  | cons command commands ih => cases command <;> exact ih _

/-- The last credit is one of the credits, or there is none. -/
theorem lastCredit_cases (account : Nat) (commands : List Command) (free : Nat) :
    .creditAccount account (lastCredit account commands free) ∈ commands ∨
      (∀ free', .creditAccount account free' ∉ commands) ∧ lastCredit account commands free = free := by
  induction commands generalizing free with
  | nil => exact .inr ⟨by simp, rfl⟩
  | cons command commands ih =>
      cases command with
      | creditAccount account' free' =>
          rw [lastCredit]
          rcases ih (if account' = account then free' else free) with hmem | ⟨hnone, heq⟩
          · exact .inl (List.mem_cons_of_mem _ hmem)
          · rw [heq]
            by_cases hsame : account' = account
            · rw [if_pos hsame, hsame]
              exact .inl List.mem_cons_self
            · rw [if_neg hsame]
              refine .inr ⟨fun x hx => ?_, rfl⟩
              rcases List.mem_cons.mp hx with heq | hx
              · exact hsame (Command.creditAccount.inj heq).1.symm
              · exact hnone x hx
      | _ =>
          rcases ih free with hmem | ⟨hnone, heq⟩
          · exact .inl (List.mem_cons_of_mem _ hmem)
          · exact .inr ⟨fun x hx => hnone x (by simpa using hx), heq⟩

theorem lastCredit_of_not_credit {free : Nat} (h : ∀ free', command ≠ .creditAccount account free') :
    lastCredit account [command] free = free := by
  cases command with
  | creditAccount account' free' =>
      rw [lastCredit, lastCredit, if_neg]
      rintro rfl
      exact h free' rfl
  | _ => rfl

/-- The mirror moves by credits only. -/
theorem free_turn {e e' : Engine} {t : Totals} (heffect : Engine.Effect now e e' bundles command)
    (ht : e.market.totals account = some t) :
    ∃ t', e'.market.totals account = some t' ∧ t'.free = lastCredit account [command] t.free := by
  have hsame : ∀ {scope : Scope}, Market.Steps now scope e.market e'.market →
      (∀ free, scope ≠ .crediting account free) →
        (∀ free, command ≠ .creditAccount account free) →
          ∃ t', e'.market.totals account = some t' ∧ t'.free = lastCredit account [command] t.free := by
    intro scope hsteps hscope hcommand
    obtain ⟨t', ht', hmove⟩ := hsteps.totals ht
    refine ⟨t', ht', ?_⟩
    rw [lastCredit_of_not_credit hcommand]
    rcases hmove.free with heq | hcredit
    · exact heq
    · exact absurd hcredit (hscope _)
  cases heffect with
  | still hsteps _ _ _ hmirror =>
      refine hsame (hsteps .calm) (by simp) ?_
      rintro free rfl
      rw [hmirror account free rfl] at ht
      cases ht
  | traded hgateway _ hmirror hsteps =>
      refine hsame hsteps (hmirror account) ?_
      rintro free rfl
      cases hgateway
  | @credited account' free hsteps hmirror =>
      by_cases heq : account' = account
      · subst heq
        obtain ⟨t', ht', -⟩ := hsteps.totals ht
        refine ⟨t', ht', ?_⟩
        rw [hmirror t' ht', lastCredit, if_pos rfl, lastCredit]
      · refine hsame hsteps ?_ ?_
        · rintro _ ⟨⟩
          exact heq rfl
        · rintro _ ⟨⟩
          exact heq rfl
  | accepted haccepts => exact hsame haccepts.steps (by simp) (by simp)
  | resolved _ hanswers => exact hsame hanswers.steps (by simp) (by simp)

/-- The claims of an account shrink at least as what it owes does, unless a gateway
    command claimed within its mirror. -/
theorem Agrees.claimed_turn {t t' : Totals} (hagrees : Agrees h commands)
    (heffect : Engine.Effect now h.engine h'.engine bundles command)
    (ht : h.engine.market.totals account = some t)
    (ht' : h'.engine.market.totals account = some t') :
    t'.claimed + h.owed [] account ≤ t.claimed + h.owed [command] account ∨
      command.isGateway = true ∧ t'.claimed ≤ t'.free := by
  have hunheard : (∀ b ∈ h.intents, h.engine.market.awaits b = true →
      command ≠ .pollSettlement b.nonce .settled) →
        h.owed [command] account = h.owed [] account := by
    intro hother
    refine owed_congr rfl fun b hb => ?_
    cases hawaits : h.engine.market.awaits b with
    | false => simp [owes, hawaits]
    | true =>
        have hne : Command.pollSettlement b.nonce .settled ≠ command := (hother b hb hawaits).symm
        simp [owes, hawaits, hne]
  have hmove : ∀ {scope : Scope}, Market.Steps now scope h.engine.market h'.engine.market →
      t'.claimed ≤ t.claimed ∨ t'.claimed ≤ t'.free ∧ scope.Opens := by
    intro scope hsteps
    obtain ⟨t'', ht'', hmove⟩ := hsteps.totals ht
    obtain rfl := Option.some.inj (ht'.symm.trans ht'')
    exact hmove.claimed
  cases heffect with
  | still hsteps hauctions hbundles hanswer =>
      rcases hmove (hsteps (.rejecting ⟨0, 0⟩)) with hle | ⟨-, hopens⟩
      · refine .inl ?_
        rw [hunheard]
        · omega
        · rintro b - hawaits rfl
          obtain ⟨a, deadline, ha, hstate⟩ := Market.awaits_iff.mp hawaits
          exact hanswer b.nonce .settled b.basket a deadline rfl rfl ha hstate
      · cases hopens
  | traded hgateway _ _ hsteps =>
      rcases hmove hsteps with hle | ⟨hle, -⟩
      · refine .inl ?_
        rw [hunheard]
        · omega
        · rintro b - - rfl
          cases hgateway
      · exact .inr ⟨hgateway, hle⟩
  | credited hsteps =>
      rcases hmove hsteps with hle | ⟨-, hopens⟩
      · refine .inl ?_
        rw [hunheard (by simp)]
        omega
      · cases hopens
  | accepted haccepts =>
      rcases hmove haccepts.steps with hle | ⟨-, hopens⟩
      · refine .inl ?_
        rw [hunheard (by simp)]
        omega
      · cases hopens
  | @resolved r status a hterminal hanswers =>
      obtain ⟨t'', ht'', -, hle⟩ := hanswers.totals account t ht
      obtain rfl := Option.some.inj (ht'.symm.trans ht'')
      refine .inl ?_
      by_cases hordered : ∃ b ∈ h.intents, b.nonce = Nonce.of r
      · obtain ⟨b, hb, hnonce⟩ := hordered
        obtain rfl := Bundle.basket_eq hnonce
        obtain ⟨deadline, hsettling⟩ := hanswers.settling
        have hpledged : h.engine.market.pledged b.basket account = b.due account := by
          cases hagrees.fate b hb with
          | awaits _ _ _ hpledged => exact hpledged.pledged account
          | @answered _ status' hauction hstate =>
              obtain rfl := Option.some.inj (hanswers.auction.symm.trans hauction)
              rw [hsettling] at hstate
              cases status' <;> cases hstate
        have howed : h.owed [] account ≤
            h.owed [.pollSettlement b.nonce status] account + b.due account :=
          hagrees.owed_le_add hb
        rw [hpledged] at hle
        rw [Bundle.nonce_basket]
        omega
      · rw [hunheard]
        · omega
        · rintro b hb - heq
          exact hordered ⟨b, hb, (Command.pollSettlement.inj heq).1.symm⟩

-- ============================================================================
-- What is still to come
-- ============================================================================

/-- The commands the engine has yet to be handed: those drained, and the backlog. -/
def coming (h : Harness) (commands : List Command) : List Command :=
  commands ++ h.indexer.backlog h.custody.log

/-- Answers still to come are the ones on record. -/
theorem Agrees.coming (hagrees : Agrees h commands) {nonce : Nonce} {status : TxStatus}
    (hmem : .pollSettlement nonce status ∈ h.coming commands) :
    h.custody.resolved nonce = some status := by
  rcases List.mem_append.mp hmem with hmem | hmem
  · exact hagrees.heard nonce status (.inr hmem)
  · obtain ⟨entry, hentry, hcommand⟩ := List.mem_map.mp hmem
    exact hagrees.logged nonce status
      (mem_resolutions (Feed.walk_sublist.subset hentry) hcommand)

end Harness

end RfqSettlement
