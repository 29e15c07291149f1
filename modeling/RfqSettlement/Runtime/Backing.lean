/-
  RfqSettlement.Runtime.Backing

  Without withdrawals no settlement fails for funds, however late the engine hears.

  A claim is backed by the balance behind it and by what its account owes.  The mirror
  may be behind, but on the way from it to the balance, credit by credit, nothing is
  ever promised that is not there: a settlement's debits come out of the log before its
  answer, and until the answer its claims stand.
-/

import RfqSettlement.Runtime.Custodial

namespace RfqSettlement

namespace Harness

open CustodyLedger (Posts Raises SameTimelocks)

variable {config : Config} {clocks : Clocks} {ok : Harness → HarnessOp → Prop} {op : HarnessOp}
  {h h' : Harness} {commands commands' added : List Command} {command : Command}
  {bundles : List Bundle} {payloads : List ChainPayload} {now : Nat}

/-- Nobody asks for money back; what was delivered is neither forgotten nor taken back. -/
def Unwithdrawn (h : Harness) : HarnessOp → Prop
  | .requestWithdrawal _ _ => False
  | .forgetEverything => False
  | .reorg block => Shallow h block
  | op => Straight h op

/-- The inclusion did not fail for money or for an account. -/
def Inclusion.Funded (i : Inclusion) : Prop :=
  ∀ err, i.tx.outcome = .error err →
    err ≠ .unknownAccount ∧ err ≠ .amountOverflow ∧ ∀ a, err ≠ .insufficientFunds a

/-- Everything promised is there. -/
structure Covered (h : Harness) (commands : List Command) : Prop where
  unlocked : ∀ a b, h.custody.account a = some b → b.pending = 0
  backed : ∀ a t, h.engine.market.totals a = some t → t.claimed ≤ h.custody.balance a + h.owed [] a
  mirrored : ∀ a t, h.engine.market.totals a = some t → ∀ heard, heard <+: h.coming commands →
    lastCredit a heard t.free ≤ h.custody.balance a + h.owed heard a
  funded : ∀ i ∈ h.included, Inclusion.Funded i

theorem covered_new (hnew : new config = .ok h) : Covered h [] := by
  obtain ⟨engine, hengine, rfl⟩ := new_eq_ok hnew
  obtain ⟨-, rfl⟩ := Engine.new_eq_ok hengine
  refine ⟨fun a b hb => ?_, fun a t ht => ?_, fun a t ht heard hheard => ?_, by simp [start]⟩
  · rw [start, CustodyLedger.account, CustodyLedger.new, List.getElem?_replicate] at hb
    split at hb
    · obtain rfl := Option.some.inj hb
      rfl
    · cases hb
  · rw [Engine.totals_new ht]
    exact Nat.zero_le _
  · obtain rfl : heard = [] := List.prefix_nil.mp hheard
    rw [Engine.totals_new ht]
    exact Nat.zero_le _

/-- A command to the engine: the one that was coming, or one that is no credit and no
    answer. -/
theorem Covered.turn (hc : Covered h commands) (hagrees : Agrees h commands)
    (heffect : Engine.Effect now h.engine h'.engine bundles command)
    (hcustody : h'.custody = h.custody) (hincluded : h'.included = h.included)
    (hintents : h'.intents = h.intents ++ bundles)
    (hdelivered : ∀ x ∈ h'.commands, x ∈ h.commands ∨ x = command)
    (hanswer : ∀ nonce status, command = .pollSettlement nonce status → status.isTerminal = true →
      h.custody.resolved nonce = some status)
    (hnext : ∀ a t heard, h.engine.market.totals a = some t → heard <+: h'.coming commands' →
      lastCredit a (command :: heard) t.free ≤ h.custody.balance a + h.owed (command :: heard) a) :
    Covered h' commands' := by
  have howed : ∀ heard a, h'.owed heard a = h.owed (command :: heard) a := fun heard a =>
    hagrees.owed_turn heffect hcustody hintents hdelivered hanswer heard a
  have hbefore : ∀ a t', h'.engine.market.totals a = some t' →
      ∃ t, h.engine.market.totals a = some t ∧ t'.free = lastCredit a [command] t.free := by
    intro a t' ht'
    obtain ⟨scope, hsteps⟩ := heffect.steps
    obtain ⟨t, ht⟩ := Option.isSome_iff_exists.mp
      (hsteps.totals_isSome.symm.trans (by rw [ht']; rfl))
    obtain ⟨t'', ht'', hfree⟩ := free_turn heffect ht
    obtain rfl := Option.some.inj (ht'.symm.trans ht'')
    exact ⟨t, ht, hfree⟩
  refine ⟨hcustody ▸ hc.unlocked, fun a t' ht' => ?_, fun a t' ht' heard hheard => ?_, ?_⟩
  · obtain ⟨t, ht, hfree⟩ := hbefore a t' ht'
    have hbacked := hc.backed a t ht
    rw [hcustody, howed]
    rcases hagrees.claimed_turn heffect ht ht' with hle | ⟨hgateway, hle⟩
    · omega
    · have hmirror := hc.mirrored a t ht [] List.nil_prefix
      rw [lastCredit] at hmirror
      rw [owed_cons h a [] (by rintro nonce rfl; cases hgateway)]
      rw [lastCredit_of_not_credit (by rintro free rfl; cases hgateway)] at hfree
      omega
  · obtain ⟨t, ht, hfree⟩ := hbefore a t' ht'
    have hmirror := hnext a t heard ht hheard
    rw [← List.singleton_append, lastCredit_append, ← hfree] at hmirror
    rw [hcustody, howed]
    exact hmirror
  · rw [hincluded]
    exact hc.funded

/-- A move of custody, and what its log adds to what is coming. -/
theorem Covered.chain (hc : Covered h commands) (hengine : h'.engine = h.engine)
    (hunlocked : ∀ a b, h'.custody.account a = some b → b.pending = 0)
    (hcoming : h'.coming commands' <+: h.coming commands ++ added)
    (hheard : ∀ a heard, heard <+: h.coming commands →
      h.custody.balance a + h.owed heard a ≤ h'.custody.balance a + h'.owed heard a)
    (hposted : ∀ a ms, ms <+: added →
      (∀ free, .creditAccount a free ∈ ms → free ≤ h'.custody.balance a) ∧
        ((∀ free, .creditAccount a free ∉ ms) →
          h.custody.balance a + h.owed (h.coming commands) a ≤
            h'.custody.balance a + h'.owed (h.coming commands ++ ms) a))
    (hfunded : ∀ i ∈ h'.included, Inclusion.Funded i) : Covered h' commands' := by
  refine ⟨hunlocked, fun a t ht => ?_, fun a t ht heard hprefix => ?_, hfunded⟩
  · rw [hengine] at ht
    exact (hc.backed a t ht).trans (hheard a [] List.nil_prefix)
  · rw [hengine] at ht
    have hheard' := hprefix.trans hcoming
    rcases List.prefix_or_prefix_of_prefix hheard' (List.prefix_append _ added) with hold | ⟨ms, rfl⟩
    · exact (hc.mirrored a t ht heard hold).trans (hheard a heard hold)
    · have hms : ms <+: added := (List.prefix_append_right_inj _).mp hheard'
      obtain ⟨hcredits, hsilent⟩ := hposted a ms hms
      have hmirror := hc.mirrored a t ht (h.coming commands) (List.prefix_refl _)
      rw [lastCredit_append]
      rcases lastCredit_cases a ms (lastCredit a (h.coming commands) t.free) with hmem | ⟨hnone, heq⟩
      · exact (hcredits _ hmem).trans (Nat.le_add_right _ _)
      · rw [heq]
        exact hmirror.trans (hsilent hnone)

/-- A move that changes no balance and settles nothing. -/
theorem Covered.quiet (added : List Command) (hc : Covered h commands) (hengine : h'.engine = h.engine)
    (hintents : h'.intents = h.intents) (hfunded : ∀ i ∈ h'.included, Inclusion.Funded i)
    (hbalances : h'.custody.balances = h.custody.balances)
    (hresolved : ∀ nonce, h'.custody.resolved nonce = some .settled ↔
      h.custody.resolved nonce = some .settled)
    (hcoming : h'.coming commands' <+: h.coming commands ++ added)
    (hsilent : ∀ a free, .creditAccount a free ∉ added)
    (hunanswered : ∀ nonce, .pollSettlement nonce .settled ∉ added) : Covered h' commands' := by
  have howed : ∀ heard a, h'.owed heard a = h.owed heard a := fun heard a =>
    owed_congr hintents fun b _ => by simp only [owes, hresolved, hengine]
  refine hc.chain hengine ?_ hcoming (fun a heard _ => ?_) (fun a ms hms => ⟨?_, fun _ => ?_⟩) hfunded
  · intro a b hb
    rw [CustodyLedger.account_congr hbalances] at hb
    exact hc.unlocked a b hb
  · rw [CustodyLedger.balance_congr hbalances, howed]
  · exact fun free hmem => absurd (hms.subset hmem) (hsilent a free)
  · rw [CustodyLedger.balance_congr hbalances, howed]
    refine Nat.add_le_add_left (Nat.le_of_eq (owed_congr rfl fun b _ => ?_)) _
    have hnot : .pollSettlement b.nonce .settled ∉ ms := fun hmem =>
      hunanswered b.nonce (hms.subset hmem)
    simp [owes, hnot]

/-- No pending withdrawal, where accounts keep theirs. -/
theorem Covered.unlocked_of {l : CustodyLedger} (hc : Covered h commands)
    (haccounts : l.balances.length = h.custody.balances.length)
    (htimelocks : SameTimelocks h.custody l) : ∀ a b, l.account a = some b → b.pending = 0 := by
  intro a b' hb'
  have hknown : (h.custody.account a).isSome = true := by
    rw [CustodyLedger.isSome_account_iff, ← haccounts, ← CustodyLedger.isSome_account_iff, hb']
    rfl
  obtain ⟨b, hb⟩ := Option.isSome_iff_exists.mp hknown
  obtain ⟨b'', hb'', hpending, -⟩ := htimelocks a b hb
  obtain rfl := Option.some.inj (hb'.symm.trans hb'')
  rw [hpending]
  exact hc.unlocked a b hb

/-- An operation that leaves nobody with less, and what it posts. -/
theorem Covered.raise (hc : Covered h commands) (hengine : h'.engine = h.engine)
    (hintents : h'.intents = h.intents) (hincluded : h'.included = h.included)
    (hindexer : h'.indexer = h.indexer) (hresolved : h'.custody.resolved = h.custody.resolved)
    (haccounts : h'.custody.balances.length = h.custody.balances.length)
    (htracks : h.indexer.Tracks h.custody.log) (hraises : Raises h.custody h'.custody)
    (hposts : Posts h.custody h'.custody payloads) : Covered h' commands := by
  obtain ⟨more, hmore, hbacklog, -⟩ := Indexer.backlog_appends htracks payloads
  have howed : ∀ heard a, h'.owed heard a = h.owed heard a := fun heard a =>
    owed_congr hintents fun b _ => by rw [owes, owes, hresolved, hengine]
  have hcoming : h'.coming commands = h.coming commands ++ more.map ChainPayload.command := by
    rw [coming, coming, hindexer, hposts.log, hbacklog, List.append_assoc]
  have hpayload : ∀ x ∈ more.map ChainPayload.command, ∃ p ∈ payloads, p.command = x := by
    intro x hx
    obtain ⟨p, hp, rfl⟩ := List.mem_map.mp hx
    exact ⟨p, hmore.subset hp, rfl⟩
  have hprefix : h'.coming commands <+: h.coming commands ++ more.map ChainPayload.command := by
    rw [hcoming]
  refine hc.chain hengine (hc.unlocked_of haccounts hraises.timelocks) hprefix (fun a heard _ => ?_)
    (fun a ms hms => ⟨fun free hmem => ?_, fun _ => ?_⟩) ?_
  · rw [howed]
    exact Nat.add_le_add_right (hraises.balance a) _
  · obtain ⟨p, hp, hcommand⟩ := hpayload _ (hms.subset hmem)
    cases p with
    | balanceChanged account available =>
        obtain ⟨rfl, rfl⟩ := Command.creditAccount.inj hcommand
        rw [hposts.values _ _ hp]
        exact CustodyLedger.available_le_balance _ _
    | _ => cases hcommand
  · rw [howed]
    refine Nat.add_le_add (hraises.balance a) (Nat.le_of_eq (owed_congr rfl fun b _ => ?_))
    have hnot : .pollSettlement b.nonce .settled ∉ ms := by
      intro hmem
      obtain ⟨p, hp, hcommand⟩ := hpayload _ (hms.subset hmem)
      cases p with
      | settlementResolved nonce status => exact hposts.silent nonce status hp
      | _ => cases hcommand
    simp [owes, hnot]
  · rw [hincluded]
    exact hc.funded

/-- A bundle custody has not answered finds its money. -/
theorem Covered.solvent {b : Bundle} (hc : Covered h commands) (hagrees : Agrees h commands)
    (hcustodial : Custodial h) (hsane : h.engine.Sane) (hb : b ∈ h.intents)
    (hnone : h.custody.resolved b.nonce = none) {a : Nat} (ha : a ∈ b.parties) :
    (h.custody.account a).isSome = true ∧ b.due a ≤ h.custody.balance a := by
  obtain ⟨hawaits, hpledged⟩ := hagrees.unresolved hb hnone
  have hknown := hcustodial.parties hsane hpledged ha
  refine ⟨hknown, ?_⟩
  obtain ⟨t, ht⟩ := Option.isSome_iff_exists.mp ((hcustodial.known a).trans hknown)
  have hnot : h.owes [] b = false := by simp [owes, hnone]
  have hcovers := hagrees.covers hb hawaits hnot a
  have hclaimed := hsane.healthy.intact.claimed ht
  have hbacked := hc.backed a t ht
  have hsame : h.engine.market.sum (Claim.heldBy a) = h.engine.ledger.market.sum (Claim.heldBy a) := rfl
  omega

/-- A settlement: its debits are owed until its answer is heard, and are heard before it. -/
theorem Covered.settle {b : Bundle} {pending : List Bundle} {debits : CustodyLedger.Debits}
    (hc : Covered h commands) (hagrees : Agrees h commands) (hcustodial : Custodial h)
    (hb : b ∈ h.intents) (hnone : h.custody.resolved b.nonce = none)
    (hvalidated : ({ h.custody with pending } : CustodyLedger).Validated b now debits)
    (hengine : h'.engine = h.engine) (hintents : h'.intents = h.intents)
    (hindexer : h'.indexer = h.indexer)
    (hcustody : h'.custody =
      (({ h.custody with pending } : CustodyLedger).commitBundle b debits).announce b.nonce .settled)
    (hfunded : ∀ i ∈ h'.included, Inclusion.Funded i) : Covered h' commands := by
  obtain ⟨payloads, hposts⟩ : ∃ payloads, Posts { h.custody with pending }
      (({ h.custody with pending } : CustodyLedger).commitBundle b debits) payloads :=
    ⟨_, CustodyLedger.posts_commitBundle⟩
  have htimelocks : SameTimelocks { h.custody with pending }
      (({ h.custody with pending } : CustodyLedger).commitBundle b debits) :=
    CustodyLedger.sameTimelocks_commitBundle
  have hbooks := (CustodyLedger.sameBooks_debitAll (l := { h.custody with pending }) debits).trans
    (CustodyLedger.sameBooks_logBalances (debits.map Prod.fst))
  obtain ⟨-, -, hbalance⟩ := hvalidated.commitBundle
  have hresolved := CustodyLedger.resolved_commitBundle (l := { h.custody with pending }) b debits
  have haccounts : (({ h.custody with pending } : CustodyLedger).commitBundle b debits).balances.length =
      h.custody.balances.length := hbooks.accounts
  generalize ({ h.custody with pending } : CustodyLedger).commitBundle b debits = l at *
  have hresolved' : h'.custody.resolved =
      Function.update h.custody.resolved b.nonce (some .settled) := by
    rw [hcustody]
    simp only [CustodyLedger.announce, hresolved, Function.update_idem]
  have hbalances : h'.custody.balances = l.balances := by rw [hcustody]; rfl
  have hpaid : ∀ a, h'.custody.balance a + b.due a = h.custody.balance a := by
    intro a
    rw [CustodyLedger.balance_congr hbalances]
    exact hbalance a
  obtain ⟨more, hmore, hbacklog, -⟩ := Indexer.backlog_appends hcustodial.tracks
    (payloads ++ [ChainPayload.settlementResolved b.nonce .settled])
  have hcoming : h'.coming commands <+: h.coming commands ++ more.map ChainPayload.command := by
    have hlog : h'.custody.log =
        (payloads ++ [ChainPayload.settlementResolved b.nonce .settled]).foldl ChainLog.append h.custody.log := by
      rw [hcustody, List.foldl_append]
      exact congrArg (ChainLog.append · _) hposts.log
    rw [coming, coming, hindexer, hlog, hbacklog, List.append_assoc]
  refine hc.chain hengine ?_ hcoming (fun a heard hheard => ?_) (fun a ms hms => ?_) hfunded
  · intro a b' hb'
    rw [CustodyLedger.account_congr hbalances] at hb'
    exact hc.unlocked_of haccounts htimelocks a b' hb'
  · -- its answer is not among what was coming, for custody had not answered it
    have hunheard : .pollSettlement b.nonce .settled ∉ heard := by
      intro hmem
      have hsome := hagrees.coming (hheard.subset hmem)
      rw [hnone] at hsome
      cases hsome
    rw [hagrees.owed_settle hb hnone hengine hintents hresolved' hunheard]
    have := hpaid a
    omega
  have hposted : ∀ p ∈ payloads, ∀ free, p.command = .creditAccount a free →
      free ≤ h'.custody.balance a := by
    intro p hp free hcommand
    cases p with
    | balanceChanged account available =>
        obtain ⟨rfl, rfl⟩ := Command.creditAccount.inj hcommand
        rw [hposts.values _ _ hp, CustodyLedger.balance_congr hbalances]
        exact CustodyLedger.available_le_balance _ _
    | _ => cases hcommand
  have hsilent : ∀ nonce, .pollSettlement nonce .settled ∉ payloads.map ChainPayload.command := by
    intro nonce hmem
    obtain ⟨p, hp, hcommand⟩ := List.mem_map.mp hmem
    cases p with
    | settlementResolved nonce status => exact hposts.silent nonce status hp
    | _ => cases hcommand
  have hunchanged : ∀ ms, (∀ x ∈ h.intents, x.nonce ≠ b.nonce →
      .pollSettlement x.nonce .settled ∉ ms) →
        h.owed (h.coming commands ++ ms) a = h.owed (h.coming commands) a := by
    intro ms hother
    refine owed_congr rfl fun x hx => ?_
    by_cases hkey : x.nonce = b.nonce
    · simp [owes, hkey, hnone]
    · simp [owes, hother x hx hkey]
  have hprefix : ms <+: payloads.map ChainPayload.command ++
      [Command.pollSettlement b.nonce .settled] := by
    have hmap := (hmore.map ChainPayload.command)
    rw [List.map_append] at hmap
    exact hms.trans hmap
  rcases List.prefix_concat_iff.mp hprefix with rfl | hcredits
  · refine ⟨fun free hmem => ?_, fun hnocredit => ?_⟩
    · rcases List.mem_append.mp hmem with hmem | hmem
      · obtain ⟨p, hp, hcommand⟩ := List.mem_map.mp hmem
        exact hposted p hp free hcommand
      · cases List.mem_singleton.mp hmem
    · -- an account that is not named was not debited
      have hsame : l.account a = h.custody.account a := by
        by_contra hne
        have hmem := hposts.changed a hne
        exact hnocredit _ (List.mem_append_left _ (List.mem_map_of_mem hmem))
      have hbalance' : h'.custody.balance a = h.custody.balance a := by
        rw [CustodyLedger.balance_congr hbalances, CustodyLedger.balance, hsame]
        rfl
      rw [hbalance', ← hunchanged (payloads.map ChainPayload.command ++
          [Command.pollSettlement b.nonce .settled]) fun x _ hne hmem => ?_]
      · exact Nat.add_le_add_left (owed_le_settle hnone hengine hintents hresolved') _
      · rcases List.mem_append.mp hmem with hmem | hmem
        · exact hsilent _ hmem
        · exact hne (Command.pollSettlement.inj (List.mem_singleton.mp hmem)).1
  · refine ⟨fun free hmem => ?_, fun _ => ?_⟩
    · obtain ⟨p, hp, hcommand⟩ := List.mem_map.mp (hcredits.subset hmem)
      exact hposted p hp free hcommand
    · have hunheard : .pollSettlement b.nonce .settled ∉ h.coming commands ++ ms := by
        intro hmem
        rcases List.mem_append.mp hmem with hmem | hmem
        · have hsome := hagrees.coming hmem
          rw [hnone] at hsome
          cases hsome
        · exact hsilent _ (hcredits.subset hmem)
      rw [hagrees.owed_settle hb hnone hengine hintents hresolved' hunheard,
        hunchanged ms fun x _ _ hmem => hsilent _ (hcredits.subset hmem)]
      have := hpaid a
      omega

/-- An inclusion. -/
theorem Covered.include {bundle : Bundle} {pending : List Bundle} {tx : CustodyLedger.IncludedTx}
    (hc : Covered h commands) (hagrees : Agrees h commands) (hcustodial : Custodial h)
    (hsane : h.engine.Sane) (hpending : h.custody.pending = bundle :: pending)
    (htx : (h.custody.includeNext [] now).1 = some tx) (hengine : h'.engine = h.engine)
    (hintents : h'.intents = h.intents) (hindexer : h'.indexer = h.indexer)
    (hcustody : h'.custody = (h.custody.includeNext [] now).2)
    (hincluded : h'.included = h.included ++ [⟨bundle, now, tx⟩]) : Covered h' commands := by
  have hb : bundle ∈ h.intents := hagrees.kept bundle (.inr (.inr (by simp [hpending])))
  have hfunded : Inclusion.Funded ⟨bundle, now, tx⟩ → ∀ i ∈ h'.included, Inclusion.Funded i := by
    intro hnew i hi
    rw [hincluded] at hi
    rcases List.mem_append.mp hi with hi | hi
    · exact hc.funded i hi
    · exact List.mem_singleton.mp hi ▸ hnew
  have hcases := CustodyLedger.includeNext_cases h.custody [] now
  generalize h.custody.includeNext [] now = result at hcases htx hcustody
  cases hcases with
  | idle hidle => cases htx
  | bounced hpending' =>
      obtain rfl := Option.some.inj htx
      have hsame : h'.coming commands = h.coming commands := by
        rw [coming, coming, hindexer, hcustody]
      refine hc.quiet [] hengine hintents (hfunded ?_) (by rw [hcustody])
        (fun nonce => by rw [hcustody]) (by rw [hsame, List.append_nil]) (by simp) (by simp)
      rintro err ⟨⟩
      simp
  | @reverted bundle' pending' err hpending' hresolved hsettle =>
      obtain ⟨rfl, rfl⟩ := List.cons.inj (hpending.symm.trans hpending')
      obtain rfl := Option.some.inj htx
      have hfire : ({ h.custody with pending } : CustodyLedger).fire [] = { h.custody with pending } :=
        rfl
      rw [hfire] at hcustody
      refine hc.quiet [.pollSettlement bundle.nonce .reverted] hengine hintents (hfunded ?_)
        (by rw [hcustody]; rfl) (fun nonce => ?_) ?_ (by simp) (by simp)
      · rintro _ ⟨⟩
        have herr : (({ h.custody with pending } : CustodyLedger).settle [] bundle now).1 = .error err := by
          rw [hsettle]
        rcases CustodyLedger.settle_error_of_payable (hcustodial.payable bundle hb) herr with
          rfl | ⟨leg, rfl⟩ | rfl | ⟨-, a, ha, hstarves⟩
        · simp
        · simp
        · simp
        · obtain ⟨hknown, hdue⟩ := hc.solvent hagrees hcustodial hsane hb hresolved ha
          rcases hstarves with ⟨-, hnone⟩ | ⟨-, hlt⟩
          · have hnone : h.custody.account a = none := hnone
            rw [hnone] at hknown
            cases hknown
          · exact absurd (Nat.lt_of_lt_of_le hlt hdue) (Nat.lt_irrefl _)
      · rw [hcustody]
        simp only [CustodyLedger.announce, Function.update_apply]
        split
        next heq => simp [heq, hresolved]
        next => rfl
      · have hlog : h'.custody.log = h.custody.log.append (.settlementResolved bundle.nonce .reverted) := by
          rw [hcustody]
          rfl
        rw [coming, coming, hindexer, hlog]
        rcases Indexer.backlog_append hcustodial.tracks
          (.settlementResolved bundle.nonce .reverted) with hone | ⟨hnone, -⟩
        · rw [hone, ← List.append_assoc]
          exact List.prefix_refl _
        · rw [hnone]
          exact List.prefix_append _ _
  | @settled bundle' pending' receipt debits hpending' hresolved hvalidated hroom hreceipt =>
      obtain ⟨rfl, rfl⟩ := List.cons.inj (hpending.symm.trans hpending')
      obtain rfl := Option.some.inj htx
      exact hc.settle hagrees hcustodial hb hresolved hvalidated hengine hintents hindexer hcustody
        (hfunded (by rintro _ ⟨⟩))

/-- A command that is no credit and no answer, and brings nothing nearer. -/
theorem Covered.aside (hc : Covered h commands) (hagrees : Agrees h commands)
    (heffect : Engine.Effect now h.engine h'.engine bundles command)
    (hcustody : h'.custody = h.custody) (hindexer : h'.indexer = h.indexer)
    (hincluded : h'.included = h.included) (hintents : h'.intents = h.intents ++ bundles)
    (hdelivered : h'.commands = h.commands) (hcredit : ∀ a free, command ≠ .creditAccount a free)
    (hanswer : ∀ nonce status, command = .pollSettlement nonce status → status.isTerminal = false) :
    Covered h' commands := by
  refine hc.turn hagrees heffect hcustody hincluded hintents (fun x hx => .inl (hdelivered ▸ hx)) ?_ ?_
  · intro nonce status hcommand hterminal
    rw [hanswer nonce status hcommand] at hterminal
    cases hterminal
  · intro a t heard ht hheard
    have hmirror := hc.mirrored a t ht heard (by rwa [coming, hindexer, hcustody] at hheard)
    rw [← List.singleton_append, lastCredit_append, lastCredit_of_not_credit (hcredit a),
      List.singleton_append, owed_cons h a heard]
    · exact hmirror
    · rintro nonce rfl
      cases hanswer nonce .settled rfl

theorem Covered.move (hc : Covered h commands) (ht : Timed config clocks h)
    (hagrees : Agrees h commands) (hcustodial : Custodial h)
    (hmove : Move clocks ok op h commands h' commands')
    (hok : ∀ h op, ok h op → Unwithdrawn h op) : Covered h' commands' := by
  have hquiet : ∀ {h' : Harness} {commands' : List Command} (added : List Command), h'.engine = h.engine →
      h'.intents = h.intents → h'.included = h.included → h'.custody.balances = h.custody.balances →
      h'.custody.resolved = h.custody.resolved → h'.coming commands' <+: h.coming commands ++ added →
      (∀ a free, .creditAccount a free ∉ added) → (∀ nonce, .pollSettlement nonce .settled ∉ added) →
      Covered h' commands' := by
    intro h' commands' added hengine hintents hincluded hbalances hresolved hcoming hsilent hunanswered
    exact hc.quiet added hengine hintents (hincluded ▸ hc.funded) hbalances (fun nonce => by rw [hresolved])
      hcoming hsilent hunanswered
  have hsame : ∀ {h' : Harness}, h'.engine = h.engine → h'.intents = h.intents →
      h'.included = h.included → h'.custody.balances = h.custody.balances →
      h'.custody.resolved = h.custody.resolved →
      h'.indexer.backlog h'.custody.log <+: h.indexer.backlog h.custody.log →
      Covered h' commands := by
    intro h' hengine hintents hincluded hbalances hresolved hbacklog
    refine hquiet [] hengine hintents hincluded hbalances hresolved ?_ (by simp) (by simp)
    rw [List.append_nil]
    exact (List.prefix_append_right_inj _).mpr hbacklog
  cases hmove with
  | @applied command hop hallowed =>
      have hgateway : Unwithdrawn h (.apply command) := hop ▸ hok h op hallowed
      refine hc.aside hagrees (ht.effect command) rfl rfl rfl intents_apply rfl ?_ ?_
      · rintro a free rfl
        cases hgateway
      · rintro nonce status rfl
        cases hgateway
  | @polled request nonce hop hopen =>
      refine hc.aside hagrees (ht.effect _) rfl rfl rfl intents_apply rfl (by simp) ?_
      rintro _ _ ⟨⟩
      exact hopen
  | @delivered command commands =>
      refine hc.turn hagrees (ht.effect command) rfl rfl intents_deliver (fun x hx => by simpa using hx)
        ?_ ?_
      · rintro nonce status rfl -
        exact hagrees.heard nonce status (.inr List.mem_cons_self)
      · intro a t heard htotals hheard
        exact hc.mirrored a t htotals (command :: heard) (List.cons_prefix_cons.mpr ⟨rfl, hheard⟩)
  | drained =>
      refine hquiet [] rfl rfl rfl rfl rfl ?_ (by simp) (by simp)
      rw [List.append_nil]
      refine List.prefix_iff_eq_take.mpr ?_
      rw [coming, coming, hcustodial.tracks.drain.2, List.nil_append, List.take_length]
  | @deposited account amount =>
      obtain ⟨payloads, hposts⟩ : ∃ payloads, Posts h.custody
          (h.custody.deposit account amount).2 payloads := CustodyLedger.posts_deposit
      have hqueue := CustodyLedger.sameQueue_deposit (l := h.custody) account amount
      exact hc.raise rfl rfl rfl rfl hqueue.resolved hqueue.accounts hcustodial.tracks
        CustodyLedger.raises_deposit hposts
  | @requested account amount hop hallowed =>
      have hnever : Unwithdrawn h (.requestWithdrawal account amount) := hop ▸ hok h op hallowed
      exact hnever.elim
  | @executed account =>
      rcases CustodyLedger.executeWithdrawal_cases h.custody account (clocks.chain h.reads) with
        ⟨err, heq⟩ | ⟨b, hb, hpending, -⟩
      · refine hsame rfl rfl rfl ?_ ?_ ?_
        all_goals rw [heq]
      · exact absurd (hc.unlocked account b hb) hpending
  | sent => exact hsame rfl rfl rfl rfl rfl (List.prefix_refl _)
  | resent => exact hsame rfl rfl rfl rfl rfl (List.prefix_refl _)
  | lost =>
      have hdrop : h.custody.dropNextSubmission.2.log = h.custody.log ∧
          h.custody.dropNextSubmission.2.balances = h.custody.balances ∧
          h.custody.dropNextSubmission.2.resolved = h.custody.resolved := by
        unfold CustodyLedger.dropNextSubmission
        split <;> exact ⟨rfl, rfl, rfl⟩
      exact hsame rfl rfl rfl hdrop.2.1 hdrop.2.2 (by rw [hdrop.1])
  | included hop hallowed hpending htx =>
      exact hc.include hagrees hcustodial ht.sane hpending htx rfl rfl rfl rfl rfl
  | @paid intent payouts =>
      cases intent with
      | settleIntent escrow contract outcome =>
          obtain ⟨payloads, hposts⟩ : ∃ payloads, Posts h.custody
              (h.custody.settleEscrow escrow contract outcome).2 payloads :=
            CustodyLedger.posts_settleEscrow
          have hqueue := CustodyLedger.sameQueue_settleEscrow (l := h.custody) escrow contract outcome
          exact hc.raise rfl rfl rfl rfl hqueue.resolved hqueue.accounts hcustodial.tracks
            (CustodyLedger.raises_settleEscrow hcustodial.conserved) hposts
      | _ => exact hsame rfl rfl rfl rfl rfl (List.prefix_refl _)
  | @logged payload hrequest =>
      refine hquiet [payload.command] rfl rfl rfl rfl rfl ?_ ?_ ?_
      · rcases Indexer.backlog_append hcustodial.tracks payload with hone | ⟨hnone, -⟩
        · rw [coming, coming, List.append_assoc, ← hone]
        · rw [coming, coming, hnone]
          exact List.prefix_append _ _
      all_goals cases payload with
        | oracleStatusReported | escrowSettled => simp [ChainPayload.command, Indexer.translate]
        | balanceChanged | settlementResolved => cases hrequest
  | mined => exact hsame rfl rfl rfl rfl rfl (List.prefix_refl _)
  | rewound => exact hsame rfl rfl rfl rfl rfl (List.prefix_refl _)
  | forgot hop hallowed =>
      have hnever : Unwithdrawn h .forgetEverything := hop ▸ hok h op hallowed
      exact hnever.elim
  | @reorged block hop hallowed =>
      have hshallow : Unwithdrawn h (.reorg block) := hop ▸ hok h op hallowed
      obtain ⟨hblock, hspared⟩ : Shallow h block := hshallow
      exact hsame rfl rfl rfl rfl rfl (hcustodial.tracks.reorg (Nat.le_succ_of_le hblock) hspared).2
  | @handled custodyOp hop hallowed =>
      have hnever : Unwithdrawn h (.custody custodyOp) := hop ▸ hok h op hallowed
      exact hnever.elim
  | _ => exact hsame rfl rfl rfl rfl rfl (List.prefix_refl _)

theorem straight_of_unwithdrawn (hok : Unwithdrawn h op) : Straight h op := by
  cases op with
  | requestWithdrawal => exact hok.elim
  | forgetEverything => exact hok.elim
  | reorg block => trivial
  | _ => exact hok

/-- In every harness reached without a withdrawal being requested, whatever the depth, the
    stalls, the rewinds and the reorgs above what was delivered, the clock of custody, the
    losses and the resubmissions do: no inclusion failed for money or for an account. -/
theorem funded_without_withdrawals (hreached : Reached config clocks Unwithdrawn h)
    (hmono : Monotone clocks.engine) :
    ∀ i ∈ h.included, ∀ err, i.tx.outcome = .error err →
      err ≠ .unknownAccount ∧ err ≠ .amountOverflow ∧ ∀ a, err ≠ .insufficientFunds a := by
  have hall : Timed config clocks h ∧ Agrees h [] ∧ Custodial h ∧ Covered h [] := by
    refine hreached.induct (P := fun h commands => Timed config clocks h ∧ Agrees h commands ∧
      Custodial h ∧ Covered h commands) ?_ ?_
    · exact fun h hnew => ⟨timed_new hnew, agrees_new hnew, custodial_new hnew, covered_new hnew⟩
    · rintro op h commands h' commands' hmove ⟨ht, hagrees, hcustodial, hc⟩
      refine ⟨ht.move hmono hmove, hagrees.move ht hmove ?_, hcustodial.move ht hmove ?_ ?_,
        hc.move ht hagrees hcustodial hmove fun _ _ => id⟩
      · exact fun _ _ => straight_of_unwithdrawn
      · exact fun _ _ => straight_of_unwithdrawn
      · exact fun _ _ hshallow => hshallow
  exact hall.2.2.2.funded

theorem funded_traded : (small.run (stopped 5) tradeOps).included.length = 1 ∧
    ∀ i ∈ (small.run (stopped 5) tradeOps).included, ∀ a,
      i.tx.outcome ≠ .error (.insufficientFunds a) := by
  have hreached : Reached Config.small (stopped 5) Unwithdrawn (small.run (stopped 5) tradeOps) :=
    reached_small.run tradeOps (by simp [tradeOps, Lets, Unwithdrawn, Straight, Command.isGateway])
  refine ⟨by decide +kernel, fun i hi a heq => ?_⟩
  exact (funded_without_withdrawals hreached monotone_const i hi _ heq).2.2 a rfl

end Harness

end RfqSettlement
