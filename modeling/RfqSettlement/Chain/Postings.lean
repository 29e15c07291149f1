/-
  RfqSettlement.Chain.Postings

  What custody writes into its log.

  Every operation that moves money logs the accounts it changed, after the change:
  `Posts` says so of one operation, `Raises` and `Debits` what became of the
  accounts.  `Indexer.backlog` is the commands still to come out of the log, and an
  operation adds to it what it posts.
-/

import RfqSettlement.Chain.Delivery
import RfqSettlement.Chain.Conservation
import RfqSettlement.Chain.ExactlyOnce

namespace RfqSettlement

namespace CustodyLedger

variable {l l' : CustodyLedger} {a account amount now id contract : Nat} {accounts : List Nat}
  {payloads : List ChainPayload} {bundle : Bundle} {debits : Debits} {outcome : Outcome}

-- ============================================================================
-- Postings
-- ============================================================================

/-- `l'` logged `payloads`, and among them every account it changed as it is now. -/
structure Posts (l l' : CustodyLedger) (payloads : List ChainPayload) : Prop where
  log : l'.log = payloads.foldl ChainLog.append l.log
  values : ∀ a v, .balanceChanged a v ∈ payloads → v = l'.available a
  changed : ∀ a, l'.account a ≠ l.account a → .balanceChanged a (l'.available a) ∈ payloads
  silent : ∀ nonce status, .settlementResolved nonce status ∉ payloads

theorem Posts.refl (l : CustodyLedger) : Posts l l [] := ⟨rfl, by simp, by simp, by simp⟩

theorem log_logBalances :
    (l.logBalances accounts).log =
      (accounts.map fun a => .balanceChanged a (l.available a)).foldl ChainLog.append l.log := by
  induction accounts generalizing l with
  | nil => rfl
  | cons account accounts ih =>
      have hrest := ih (l := l.logBalance account)
      have hsame : ∀ a, (l.logBalance account).available a = l.available a := fun _ => rfl
      simp only [hsame] at hrest
      exact hrest

theorem available_congr (h : l'.balances = l.balances) : l'.available a = l.available a := by
  rw [available, available, CustodyLedger.account, CustodyLedger.account, h]

theorem available_le_balance (l : CustodyLedger) (a : Nat) : l.available a ≤ l.balance a := by
  rw [available, balance]
  cases l.account a with
  | none => exact Nat.le_refl _
  | some b => exact Nat.sub_le b.balance b.pending

theorem account_congr (h : l'.balances = l.balances) : l'.account a = l.account a := by
  rw [CustodyLedger.account, CustodyLedger.account, h]

/-- Logging the accounts that changed. -/
theorem posts_logBalances (l₁ : CustodyLedger) (accounts : List Nat) (hlog : l₁.log = l.log)
    (hchanged : ∀ a, l₁.account a ≠ l.account a → a ∈ accounts)
    (hbalances : l'.balances = l₁.balances) (hlog' : l'.log = (l₁.logBalances accounts).log) :
    Posts l l' (accounts.map fun a => .balanceChanged a (l₁.available a)) where
  log := by rw [hlog', log_logBalances, hlog]
  values a v hv := by
    obtain ⟨x, -, heq⟩ := List.mem_map.mp hv
    obtain ⟨rfl, rfl⟩ := ChainPayload.balanceChanged.inj heq
    exact (available_congr hbalances).symm
  changed a ha := by
    rw [account_congr hbalances] at ha
    rw [available_congr hbalances]
    exact List.mem_map.mpr ⟨a, hchanged a ha, rfl⟩
  silent nonce status h := by
    obtain ⟨x, -, heq⟩ := List.mem_map.mp h
    cases heq

theorem mem_of_modifyAccount {f : Balance → Balance}
    (h : (l.modifyAccount account f).account a ≠ l.account a) : a ∈ [account] := by
  rw [account_modifyAccount] at h
  split at h
  next heq => simp [heq]
  next => exact absurd rfl h

theorem posts_deposit : ∃ payloads, Posts l (l.deposit account amount).2 payloads := by
  rcases deposit_cases l account amount with ⟨err, heq⟩ | ⟨b, hb, -, -, heq⟩
  · exact heq ▸ ⟨[], .refl l⟩
  · rw [heq]
    exact ⟨_, posts_logBalances (l.modifyAccount account _) [account] rfl
      (fun a => mem_of_modifyAccount) rfl rfl⟩

theorem posts_requestWithdrawal :
    ∃ payloads, Posts l (l.requestWithdrawal account amount now).2 payloads := by
  rcases requestWithdrawal_cases l account amount now with ⟨err, heq⟩ | ⟨b, hb, -, -, -, heq⟩
  · exact heq ▸ ⟨[], .refl l⟩
  · rw [heq]
    exact ⟨_, posts_logBalances (l.modifyAccount account _) [account] rfl
      (fun a => mem_of_modifyAccount) rfl rfl⟩

theorem posts_executeWithdrawal :
    ∃ payloads, Posts l (l.executeWithdrawal account now).2 payloads := by
  rcases executeWithdrawal_cases l account now with ⟨err, heq⟩ | ⟨b, hb, -, -, heq⟩
  · exact heq ▸ ⟨[], .refl l⟩
  · rw [heq]
    exact ⟨_, posts_logBalances (l.modifyAccount account _) [account] rfl
      (fun a => mem_of_modifyAccount) rfl rfl⟩

/-- Crediting or debiting one after another changes no account that is not named. -/
theorem mem_of_foldl (step : CustodyLedger → Nat × Nat → CustodyLedger) {xs : List (Nat × Nat)}
    (hstep : ∀ l x a, (step l x).account a ≠ l.account a → a = x.1)
    (h : (xs.foldl step l).account a ≠ l.account a) : a ∈ xs.map Prod.fst := by
  induction xs generalizing l with
  | nil => exact absurd rfl h
  | cons x xs ih =>
      rw [List.map_cons]
      by_cases hsame : (step l x).account a = l.account a
      · exact List.mem_cons_of_mem _ (ih (hsame ▸ h))
      · exact hstep l x a hsame ▸ List.mem_cons_self

theorem mem_of_debitAll (h : (l.debitAll debits).account a ≠ l.account a) :
    a ∈ debits.map Prod.fst :=
  mem_of_foldl (fun l x => l.debit x.1 x.2)
    (fun _ _ _ hne => List.mem_singleton.mp (mem_of_modifyAccount hne)) h

theorem mem_of_creditAll {credits : List (Nat × Nat)}
    (h : (l.creditAll credits).account a ≠ l.account a) : a ∈ credits.map Prod.fst :=
  mem_of_foldl (fun l x => l.credit x.1 x.2)
    (fun _ _ _ hne => List.mem_singleton.mp (mem_of_modifyAccount hne)) h

theorem posts_commitBundle :
    Posts l (l.commitBundle bundle debits)
      ((debits.map Prod.fst).map fun a => .balanceChanged a ((l.debitAll debits).available a)) := by
  have hlog : (l.debitAll debits).log = l.log := log_debitAll debits
  exact posts_logBalances (l.debitAll debits) (debits.map Prod.fst) hlog (fun a => mem_of_debitAll) (balances_logBalances _) rfl

theorem posts_settleEscrow :
    ∃ payloads, Posts l (l.settleEscrow id contract outcome).2 payloads := by
  rcases settleEscrow_cases l id contract outcome with ⟨result, -, heq⟩ | ⟨e, -, -, -, heq⟩
  · exact heq ▸ ⟨[], .refl l⟩
  · rw [heq]
    refine ⟨_, posts_logBalances
      ((l.check (decide (e.requesterContribution + e.makerContribution ≤ u64Max))).creditAll
        (e.credits outcome)) ((e.credits outcome).map Prod.fst) ?_ ?_ ?_ rfl⟩
    · exact log_creditAll _
    · exact fun a ha => mem_of_creditAll ha
    · exact balances_logBalances _

-- ============================================================================
-- Accounts
-- ============================================================================

/-- Accounts stay, with the withdrawals pending on them. -/
def SameTimelocks (l l' : CustodyLedger) : Prop :=
  ∀ a b, l.account a = some b → ∃ b', l'.account a = some b' ∧ b'.pending = b.pending ∧
    b'.maturesAt = b.maturesAt

theorem SameTimelocks.refl (l : CustodyLedger) : SameTimelocks l l := fun _ b hb => ⟨b, hb, rfl, rfl⟩

theorem SameTimelocks.trans {l'' : CustodyLedger} (h : SameTimelocks l l')
    (h' : SameTimelocks l' l'') : SameTimelocks l l'' := by
  intro a b hb
  obtain ⟨b₁, hb₁, hpending₁, hmatures₁⟩ := h a b hb
  obtain ⟨b₂, hb₂, hpending₂, hmatures₂⟩ := h' a b₁ hb₁
  exact ⟨b₂, hb₂, hpending₂.trans hpending₁, hmatures₂.trans hmatures₁⟩

theorem SameTimelocks.congr (h : SameTimelocks l l₁) (hbalances : l'.balances = l₁.balances) :
    SameTimelocks l l' := by
  intro a b hb
  rw [account_congr hbalances]
  exact h a b hb

theorem sameTimelocks_modifyAccount {f : Balance → Balance}
    (hf : ∀ b, (f b).pending = b.pending ∧ (f b).maturesAt = b.maturesAt) :
    SameTimelocks l (l.modifyAccount account f) := by
  intro a b hb
  rw [account_modifyAccount]
  split
  · exact ⟨f b, by rw [hb]; rfl, (hf b).1, (hf b).2⟩
  · exact ⟨b, hb, rfl, rfl⟩

theorem sameTimelocks_foldl {step : CustodyLedger → Nat × Nat → CustodyLedger}
    (hstep : ∀ l x, SameTimelocks l (step l x)) (xs : List (Nat × Nat)) :
    SameTimelocks l (xs.foldl step l) := by
  induction xs generalizing l with
  | nil => exact .refl l
  | cons x xs ih => exact (hstep l x).trans ih

theorem sameTimelocks_debitAll : SameTimelocks l (l.debitAll debits) := by
  refine sameTimelocks_foldl (fun l x => ?_) debits
  have hmodify : SameTimelocks (l.check _) (l.debit x.1 x.2) :=
    sameTimelocks_modifyAccount fun b => ⟨rfl, rfl⟩
  exact hmodify

theorem sameTimelocks_creditAll (credits : List (Nat × Nat)) :
    SameTimelocks l (l.creditAll credits) := by
  refine sameTimelocks_foldl (fun l x => ?_) credits
  have hmodify : SameTimelocks (l.check _) (l.credit x.1 x.2) :=
    sameTimelocks_modifyAccount fun b => ⟨rfl, rfl⟩
  exact hmodify

theorem sameTimelocks_commitBundle : SameTimelocks l (l.commitBundle bundle debits) :=
  sameTimelocks_debitAll.congr (balances_logBalances _)

/-- Nobody lost anything, and no withdrawal was touched. -/
structure Raises (l l' : CustodyLedger) : Prop where
  balance : ∀ a, l.balance a ≤ l'.balance a
  timelocks : SameTimelocks l l'

theorem Raises.refl (l : CustodyLedger) : Raises l l := ⟨fun _ => Nat.le_refl _, .refl l⟩

theorem balance_congr (h : l'.balances = l.balances) : l'.balance a = l.balance a := by
  rw [balance, balance, account_congr h]

theorem raises_deposit : Raises l (l.deposit account amount).2 := by
  rcases deposit_cases l account amount with ⟨err, heq⟩ | ⟨b, hb, -, -, heq⟩
  · exact heq ▸ .refl l
  · rw [heq]
    refine ⟨fun a => ?_, sameTimelocks_modifyAccount fun _ => ⟨rfl, rfl⟩⟩
    refine Nat.le_trans ?_ (Nat.le_of_eq (balance_modifyAccount
      (f := fun b => { b with balance := b.balance + amount }) hb).symm)
    split
    next heq =>
      subst heq
      rw [balance_of_account hb]
      exact Nat.le_add_right _ _
    next => exact Nat.le_refl _

theorem raises_settleEscrow (h : l.Conserved) :
    Raises l (l.settleEscrow id contract outcome).2 := by
  rcases settleEscrow_cases l id contract outcome with ⟨result, -, heq⟩ | ⟨e, he, -, hlocked, heq⟩
  · exact heq ▸ .refl l
  · rw [heq]
    refine ⟨fun a => ?_, ?_⟩
    · exact Nat.le_trans (Nat.le_add_right _ _) (Nat.le_of_eq ((h.paid he hlocked outcome).2.2 a).symm)
    · have hcredits : SameTimelocks l
          ((l.check (decide (e.requesterContribution + e.makerContribution ≤ u64Max))).creditAll
            (e.credits outcome)) :=
        sameTimelocks_creditAll (l := l.check _) (e.credits outcome)
      exact hcredits.congr (balances_logBalances _)

end CustodyLedger

-- ============================================================================
-- The backlog
-- ============================================================================

def ChainPayload.command (payload : ChainPayload) : Command := Indexer.translate ⟨0, 0, 0, payload⟩

namespace Indexer

variable {indexer : Indexer} {log log' : ChainLog} {payload : ChainPayload}
  {payloads : List ChainPayload}

/-- The entries that are still to be delivered, deep enough or not. -/
def waiting (indexer : Indexer) (log : ChainLog) : List ChainEvent :=
  Feed.fresh ChainEvent.key indexer.delivered log.entries

/-- The commands they will come out as. -/
def backlog (indexer : Indexer) (log : ChainLog) : List Command := (indexer.waiting log).map translate

/-- An indexer that has its place in a log: what lies behind the cursor was delivered, and a
    key is minted once, as long as hashes last. -/
structure Tracks (indexer : Indexer) (log : ChainLog) : Prop where
  behind : ∀ x ∈ log.entries.take indexer.cursor, x.key ∈ indexer.delivered
  cursor : indexer.cursor ≤ log.entries.length
  sorted : log.entries.Pairwise fun a b => a.block ≤ b.block
  below : ∀ x ∈ log.entries, x.block ≤ log.head
  head : log.head ≤ u64Max
  minted : ∀ k, k ∈ log.entries.map ChainEvent.key ∨ k ∈ indexer.delivered →
    k.1 < log.nextTx ∨ log.nextTx = u64Max
  hashes : log.nextTx ≤ u64Max

theorem tracks_new (confirmations : Nat) : Tracks (new confirmations) .new := by
  constructor
  all_goals simp [new, ChainLog.new]

theorem Tracks.advanceBlock (h : indexer.Tracks log) : indexer.Tracks log.advanceBlock :=
  { h with
    below := fun x hx => by
      have := h.below x hx
      have := h.head
      simp only [ChainLog.advanceBlock, saturatingAdd]
      omega
    head := Nat.min_le_right _ _ }

theorem Tracks.append (h : indexer.Tracks log) : indexer.Tracks (log.append payload) where
  behind := by
    intro x hx
    rw [ChainLog.append, List.take_append_of_le_length h.cursor] at hx
    exact h.behind x hx
  cursor := by
    have := h.cursor
    simp only [ChainLog.append, List.length_append]
    omega
  sorted := by
    refine List.pairwise_append.mpr ⟨h.sorted, List.pairwise_singleton _ _, fun x hx y hy => ?_⟩
    rw [List.mem_singleton.mp hy]
    exact h.below x hx
  below := by
    intro x hx
    rcases List.mem_append.mp hx with hx | hx
    · exact h.below x hx
    · rw [List.mem_singleton.mp hx]
      exact Nat.le_refl _
  head := h.head
  minted := by
    intro k hk
    have hhashes := h.hashes
    have hold : k ∈ log.entries.map ChainEvent.key ∨ k ∈ indexer.delivered ∨ k = (log.nextTx, 0) := by
      simp only [ChainLog.append, List.map_append, List.mem_append, List.map_singleton,
        List.mem_singleton] at hk
      rcases hk with (hk | hk) | hk
      · exact .inl hk
      · exact .inr (.inr hk)
      · exact .inr (.inl hk)
    simp only [ChainLog.append, saturatingAdd]
    rcases hold with hk | hk | rfl
    · have := h.minted k (.inl hk)
      omega
    · have := h.minted k (.inr hk)
      omega
    · simp only
      omega
  hashes := Nat.min_le_right _ _

theorem Tracks.appends (h : indexer.Tracks log) (payloads : List ChainPayload) :
    indexer.Tracks (payloads.foldl ChainLog.append log) := by
  induction payloads generalizing log with
  | nil => exact h
  | cons payload payloads ih => exact ih h.append

theorem Tracks.rewind (h : indexer.Tracks log) : indexer.rewind.Tracks log :=
  { h with behind := by simp [Indexer.rewind], cursor := Nat.zero_le _ }

theorem Tracks.forgetEverything (h : indexer.Tracks log) : indexer.forgetEverything.Tracks log :=
  { h with
    behind := by simp [Indexer.forgetEverything]
    cursor := Nat.zero_le _
    minted := fun k hk => h.minted k (hk.imp_right fun hmem => by simp [Indexer.forgetEverything] at hmem) }

theorem backlog_congr (h : log'.entries = log.entries) :
    indexer.backlog log' = indexer.backlog log := by
  rw [backlog, backlog, waiting, waiting, h]

/-- Past the end of the log nothing is to come. -/
theorem Tracks.backlog_eq_nil (h : indexer.Tracks log) (hend : indexer.cursor = log.entries.length) :
    indexer.backlog log = [] := by
  have hread : ∀ x ∈ log.entries, x.key ∈ indexer.delivered := by
    intro x hx
    refine h.behind x ?_
    rwa [hend, List.take_length]
  rw [backlog, waiting, Feed.fresh_eq_nil hread, List.map_nil]

/-- An entry appended comes out last, unless its key was minted before. -/
theorem backlog_append (h : indexer.Tracks log) (payload : ChainPayload) :
    indexer.backlog (log.append payload) = indexer.backlog log ++ [payload.command] ∨
      indexer.backlog (log.append payload) = indexer.backlog log ∧ log.nextTx = u64Max ∧
        ((log.nextTx, 0) ∈ log.entries.map ChainEvent.key ∨ (log.nextTx, 0) ∈ indexer.delivered) := by
  have happend : indexer.waiting (log.append payload) = indexer.waiting log ++
      Feed.fresh ChainEvent.key (log.entries.map ChainEvent.key ++ indexer.delivered)
        [⟨log.head, log.nextTx, 0, payload⟩] := Feed.fresh_append _ _ _
  by_cases hseen : (log.nextTx, 0) ∈ log.entries.map ChainEvent.key ++ indexer.delivered
  · refine .inr ⟨?_, ?_, List.mem_append.mp hseen⟩
    · rw [backlog, happend]
      simp [Feed.fresh, Feed.walk, ChainEvent.key, hseen, backlog]
    · rcases h.minted _ (List.mem_append.mp hseen) with hlt | heq
      · exact absurd hlt (Nat.lt_irrefl _)
      · exact heq
  · refine .inl ?_
    rw [backlog, happend]
    simp only [Feed.fresh, Feed.walk, ChainEvent.key, hseen, if_true, if_false, List.map_append]
    rfl

/-- Past the last hash nothing more comes out. -/
theorem backlog_saturated (h : indexer.Tracks log) (hnext : log.nextTx = u64Max)
    (hseen : (log.nextTx, 0) ∈ log.entries.map ChainEvent.key ∨ (log.nextTx, 0) ∈ indexer.delivered)
    (payloads : List ChainPayload) :
    indexer.backlog (payloads.foldl ChainLog.append log) = indexer.backlog log := by
  induction payloads generalizing log with
  | nil => rfl
  | cons payload payloads ih =>
      have hnext' : (log.append payload).nextTx = u64Max := by
        simp only [ChainLog.append, saturatingAdd]
        omega
      have hseen' : (log.append payload).nextTx = log.nextTx := hnext'.trans hnext.symm
      refine (ih h.append hnext' (hseen'.symm ▸ hseen.imp_left fun hmem => ?_)).trans ?_
      · simp [ChainLog.append, hmem]
      · have hone : indexer.waiting (log.append payload) = indexer.waiting log ++
            Feed.fresh ChainEvent.key (log.entries.map ChainEvent.key ++ indexer.delivered)
              [⟨log.head, log.nextTx, 0, payload⟩] := Feed.fresh_append _ _ _
        rw [backlog, hone, Feed.fresh_eq_nil, List.append_nil]
        · rfl
        · intro x hx
          rw [List.mem_singleton.mp hx]
          exact List.mem_append.mpr hseen

/-- What is posted comes out after everything that waits, up to the last hash. -/
theorem backlog_appends (h : indexer.Tracks log) (payloads : List ChainPayload) :
    ∃ more, more <+: payloads ∧
      indexer.backlog (payloads.foldl ChainLog.append log) =
        indexer.backlog log ++ more.map ChainPayload.command ∧
      ((payloads.foldl ChainLog.append log).nextTx < u64Max → more = payloads) := by
  induction payloads generalizing log with
  | nil => exact ⟨[], List.prefix_refl _, by simp, fun _ => rfl⟩
  | cons payload payloads ih =>
      rcases backlog_append h payload with hone | ⟨hnone, hnext, hseen⟩
      · obtain ⟨more, hprefix, hbacklog, hall⟩ := ih h.append
        refine ⟨payload :: more, List.cons_prefix_cons.mpr ⟨rfl, hprefix⟩, ?_, fun hlt => ?_⟩
        · rw [List.foldl_cons, hbacklog, hone, List.append_assoc]
          rfl
        · rw [hall hlt]
      · refine ⟨[], List.nil_prefix, ?_, fun hlt => ?_⟩
        · rw [List.map_nil, List.append_nil]
          exact backlog_saturated h hnext hseen (payload :: payloads)
        · have hmono : ∀ (payloads : List ChainPayload) (log : ChainLog), log.nextTx = u64Max →
              (payloads.foldl ChainLog.append log).nextTx = u64Max := by
            intro payloads
            induction payloads with
            | nil => exact fun _ h => h
            | cons payload payloads ih =>
                intro log hlog
                refine ih _ ?_
                simp only [ChainLog.append, saturatingAdd]
                omega
          have := hmono (payload :: payloads) log hnext
          omega

/-- A drain takes the front of the backlog. -/
theorem Tracks.drain (h : indexer.Tracks log) :
    (indexer.drain log).2.Tracks log ∧
      indexer.backlog log = (indexer.drain log).1 ++ (indexer.drain log).2.backlog log := by
  unfold Indexer.drain
  cases indexer.horizon log.head with
  | none => exact ⟨h, rfl⟩
  | some horizon =>
      dsimp only
      generalize hbefore : log.entries.take indexer.cursor = before
      generalize htaken : (log.entries.drop indexer.cursor).takeWhile (deep horizon) = taken
      generalize hleft : (log.entries.drop indexer.cursor).dropWhile (deep horizon) = left
      have hrest : log.entries.drop indexer.cursor = taken ++ left := by
        rw [← htaken, ← hleft, List.takeWhile_append_dropWhile]
      have hentries : log.entries = (before ++ taken) ++ left := by
        rw [List.append_assoc, ← hrest, ← hbefore, List.take_append_drop]
      have hpass : passFrom horizon (log.entries.drop indexer.cursor) indexer =
          Feed.fresh ChainEvent.key indexer.delivered taken := by
        rw [passFrom, Feed.walk_eq_fresh, htaken]
      have hdelivered : ∀ k, k ∈ (drainFrom horizon (log.entries.drop indexer.cursor) indexer).2.delivered ↔
          k ∈ indexer.delivered ∨
            ∃ x ∈ Feed.fresh ChainEvent.key indexer.delivered taken, x.key = k := by
        intro k
        rw [mem_delivered_drainFrom, hpass]
      have hold : ∀ x ∈ before, x.key ∈ indexer.delivered := fun x hx => h.behind x (hbefore ▸ hx)
      have hread : ∀ x ∈ before ++ taken,
          x.key ∈ (drainFrom horizon (log.entries.drop indexer.cursor) indexer).2.delivered := by
        intro x hx
        rw [hdelivered]
        rcases List.mem_append.mp hx with hx | hx
        · exact .inl (hold x hx)
        · exact Feed.mem_fresh_or_seen hx
      have hcursor : (drainFrom horizon (log.entries.drop indexer.cursor) indexer).2.cursor =
          (before ++ taken).length := by
        rw [drainFrom_cursor, htaken, List.length_append, ← hbefore, List.length_take,
          Nat.min_eq_left h.cursor]
      have hcommands : (drainFrom horizon (log.entries.drop indexer.cursor) indexer).1 =
          (Feed.fresh ChainEvent.key indexer.delivered taken).map translate := by
        rw [drainFrom_commands, hpass]
      generalize drainFrom horizon (log.entries.drop indexer.cursor) indexer = after at *
      refine ⟨{ h with behind := ?_, cursor := ?_, minted := ?_ }, ?_⟩
      · rw [hcursor, hentries, List.take_left]
        exact hread
      · rw [hcursor, hentries]
        simp
      · rintro k (hk | hk)
        · exact h.minted k (.inl hk)
        · rcases (hdelivered k).mp hk with hk | ⟨x, hx, rfl⟩
          · exact h.minted k (.inr hk)
          · refine h.minted _ (.inl (List.mem_map_of_mem ?_))
            have := Feed.walk_sublist.subset hx
            simp [hentries, this]
      · -- what is taken is what was fresh up to there, and what is left is fresh still
        have hfront : Feed.fresh ChainEvent.key indexer.delivered (before ++ taken) =
            Feed.fresh ChainEvent.key indexer.delivered taken := by
          rw [Feed.fresh_append, Feed.fresh_eq_nil hold, List.nil_append]
          refine Feed.walk_congr fun k => ?_
          rw [List.mem_append]
          constructor
          · rintro (hk | hk)
            · obtain ⟨x, hx, rfl⟩ := List.mem_map.mp hk
              exact hold x hx
            · exact hk
          · exact .inr
        have hback : Feed.fresh ChainEvent.key (((before ++ taken).map ChainEvent.key) ++ indexer.delivered)
            left = Feed.fresh ChainEvent.key (((before ++ taken).map ChainEvent.key) ++ after.2.delivered)
              left := by
          refine Feed.walk_congr fun k => ?_
          rw [List.mem_append, List.mem_append, hdelivered]
          constructor
          · exact Or.imp_right .inl
          · rintro (hk | hk | ⟨x, hx, rfl⟩)
            · exact .inl hk
            · exact .inr hk
            · have := Feed.walk_sublist.subset hx
              exact .inl (List.mem_map_of_mem (List.mem_append_right _ this))
        rw [backlog, waiting, backlog, waiting, hcommands, hentries, Feed.fresh_append, hfront,
          Feed.fresh_append (before ++ taken) left after.2.delivered, Feed.fresh_eq_nil hread, hback,
          List.nil_append, List.map_append]

/-- In a sorted log a reorg leaves what came first. -/
theorem reorg_prefix (hsorted : log.entries.Pairwise fun a b => a.block ≤ b.block) (block : Nat) :
    (log.reorg block).entries <+: log.entries := by
  have hfilter : ∀ {xs : List ChainEvent}, xs.Pairwise (fun a b => a.block ≤ b.block) →
      xs.filter (fun entry => decide (entry.block < block)) =
        xs.takeWhile fun entry => decide (entry.block < block) := by
    intro xs hxs
    induction xs with
    | nil => rfl
    | cons x xs ih =>
        obtain ⟨hx, htail⟩ := List.pairwise_cons.mp hxs
        by_cases hlt : x.block < block
        · simp only [List.filter_cons, List.takeWhile_cons, hlt, decide_true, if_true, ih htail]
        · simp only [List.filter_cons, List.takeWhile_cons, hlt, decide_false, if_false,
            Bool.false_eq_true]
          refine List.filter_eq_nil_iff.mpr fun y hy => ?_
          have := hx y hy
          simp only [decide_eq_true_eq]
          omega
  rw [ChainLog.reorg, hfilter hsorted]
  exact List.takeWhile_prefix _

/-- A reorg that spares what was delivered takes the end off the backlog. -/
theorem Tracks.reorg (h : indexer.Tracks log) {block : Nat} (hblock : block ≤ u64Max + 1)
    (hspared : ∀ x ∈ log.entries, x.key ∈ indexer.delivered → x.block < block) :
    indexer.Tracks (log.reorg block) ∧
      indexer.backlog (log.reorg block) <+: indexer.backlog log := by
  obtain ⟨lost, hlost⟩ := reorg_prefix h.sorted block
  have hbehind : log.entries.take indexer.cursor <+: (log.reorg block).entries := by
    have hkept : (log.entries.take indexer.cursor).filter (fun x => decide (x.block < block)) =
        log.entries.take indexer.cursor := by
      refine List.filter_eq_self.mpr fun x hx => decide_eq_true ?_
      exact hspared x (List.mem_of_mem_take hx) (h.behind x hx)
    refine ⟨(log.entries.drop indexer.cursor).filter (fun x => decide (x.block < block)), ?_⟩
    conv_lhs => rw [← hkept]
    rw [← List.filter_append, List.take_append_drop]
    rfl
  have hlen : indexer.cursor ≤ (log.reorg block).entries.length := by
    have := hbehind.length_le
    rwa [List.length_take, Nat.min_eq_left h.cursor] at this
  refine ⟨⟨?_, hlen, h.sorted.filter _, ?_, ?_, ?_, h.hashes⟩, ?_⟩
  · intro x hx
    refine h.behind x ?_
    rw [← hlost, List.take_append_of_le_length hlen]
    exact hx
  · intro x hx
    have hlt : x.block < block := by simpa using (List.mem_filter.mp hx).2
    simp only [ChainLog.reorg, saturatingSub]
    omega
  · simp only [ChainLog.reorg, saturatingSub]
    omega
  · rintro k (hk | hk)
    · refine h.minted k (.inl ?_)
      obtain ⟨x, hx, rfl⟩ := List.mem_map.mp hk
      exact List.mem_map_of_mem (List.mem_filter.mp hx).1
    · exact h.minted k (.inr hk)
  · rw [backlog, backlog, waiting, waiting, ← hlost, Feed.fresh_append, List.map_append]
    exact List.prefix_append _ _

end Indexer

end RfqSettlement
