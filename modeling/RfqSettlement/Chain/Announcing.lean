/-
  RfqSettlement.Chain.Announcing

  What custody answers it announces.

  A log only grows under custody's own operations, and every answer on record was
  appended to it as it was given.  `Announces` says so of one operation and of any
  number of them, whatever hooks fire on the way.
-/

import RfqSettlement.Chain.Operations
import RfqSettlement.Chain.Postings

namespace RfqSettlement

-- ============================================================================
-- A log that grows
-- ============================================================================

namespace Indexer

variable {Q : ChainPayload → Bool} {indexer : Indexer} {log log' : ChainLog}

theorem Tracks.extends (h : indexer.Tracks log) (hlog : log.Extends Q log') : indexer.Tracks log' := by
  obtain ⟨payloads, -, rfl⟩ := hlog
  exact h.appends payloads

/-- What was still to come is still to come. -/
theorem Tracks.backlog_extends (h : indexer.Tracks log) (hlog : log.Extends Q log') :
    indexer.backlog log <+: indexer.backlog log' := by
  obtain ⟨payloads, -, rfl⟩ := hlog
  obtain ⟨more, -, hbacklog, -⟩ := backlog_appends h payloads
  rw [hbacklog]
  exact List.prefix_append _ _

/-- While hashes last, what was appended comes out. -/
theorem Tracks.appended (h : indexer.Tracks log) {payload : ChainPayload}
    (hlog : (log.append payload).Extends Q log') (hnext : log'.nextTx < u64Max) :
    payload.command ∈ indexer.backlog log' := by
  have happended : indexer.Tracks (log.append payload) := h.append
  refine (happended.backlog_extends hlog).subset ?_
  have hbefore : log.nextTx < u64Max := by
    have hone : log.nextTx ≤ (log.append payload).nextTx :=
      (log.extends_append (Q := fun _ => true) rfl).nextTx_le h.hashes
    have hrest := hlog.nextTx_le happended.hashes
    omega
  rcases backlog_append h payload with hone | ⟨-, hlast, -⟩
  · simp [hone]
  · omega

/-- Having forgotten everything, an indexer has at least as much to deliver. -/
theorem backlog_forgetEverything : indexer.backlog log ⊆ indexer.forgetEverything.backlog log := by
  have hmore : ∀ entries : List ChainEvent, ∀ seen seen' : List (Nat × Nat), seen' ⊆ seen →
      Feed.fresh ChainEvent.key seen entries ⊆ Feed.fresh ChainEvent.key seen' entries := by
    intro entries
    induction entries with
    | nil => exact fun _ _ _ => List.Subset.refl _
    | cons entry entries ih =>
        intro seen seen' hsub
        by_cases hseen : entry.key ∈ seen
        · by_cases hseen' : entry.key ∈ seen'
          · simpa [Feed.fresh, Feed.walk, hseen, hseen'] using ih seen seen' hsub
          · have hcons : entry.key :: seen' ⊆ seen := List.cons_subset.mpr ⟨hseen, hsub⟩
            have hrest := ih seen (entry.key :: seen') hcons
            simpa [Feed.fresh, Feed.walk, hseen, hseen'] using
              List.subset_cons_of_subset entry hrest
        · have hseen' : entry.key ∉ seen' := fun hmem => hseen (hsub hmem)
          have hrest := ih (entry.key :: seen) (entry.key :: seen') (List.cons_subset_cons _ hsub)
          simpa [Feed.fresh, Feed.walk, hseen, hseen'] using List.cons_subset_cons entry hrest
  exact List.map_subset _ (hmore log.entries indexer.delivered [] (List.nil_subset _))

end Indexer

-- ============================================================================
-- Custody's operations
-- ============================================================================

namespace CustodyLedger

variable {l l' : CustodyLedger} {hook : List LedgerOp} {now : Nat}

open ChainPayload (isBalance ofCustody)

/-- From `l` to `l'` the log grew, the queue did not, and what was answered was announced. -/
structure Announces (l l' : CustodyLedger) : Prop where
  log : l.log.Extends ofCustody l'.log
  queued : ∀ b ∈ l'.pending, b ∈ l.pending
  resolved : ∀ nonce status, l'.resolved nonce = some status →
    l.resolved nonce = some status ∨
      status.isTerminal = true ∧ (∃ b ∈ l.pending, b.nonce = nonce) ∧
        ∃ log, l.log.Extends ofCustody log ∧
          (log.append (.settlementResolved nonce status)).Extends ofCustody l'.log

theorem Announces.refl (l : CustodyLedger) : Announces l l := ⟨.refl _, fun _ => id, fun _ _ => .inl⟩

theorem Announces.trans {l'' : CustodyLedger} (h : Announces l l') (h' : Announces l' l'') :
    Announces l l'' where
  log := h.log.trans h'.log
  queued b hb := h.queued b (h'.queued b hb)
  resolved nonce status hs := by
    rcases h'.resolved nonce status hs with hs | ⟨hterminal, ⟨b, hb, hnonce⟩, log, hbefore, hafter⟩
    · rcases h.resolved nonce status hs with hs | ⟨hterminal, hqueued, log, hbefore, hafter⟩
      · exact .inl hs
      · exact .inr ⟨hterminal, hqueued, log, hbefore, hafter.trans h'.log⟩
    · exact .inr ⟨hterminal, ⟨b, h.queued b hb, hnonce⟩, log, h.log.trans hbefore, hafter⟩

theorem announces_of_sameQueue (hlog : l.log.Extends ofCustody l'.log) (hqueue : SameQueue l l') :
    Announces l l' where
  log := hlog
  queued _ hb := hqueue.pending ▸ hb
  resolved _ _ hs := .inl (hqueue.resolved ▸ hs)

theorem announces_fire : Announces l (l.fire hook) :=
  announces_of_sameQueue ((extends_fire hook).imp fun _ => ChainPayload.ofCustody_of_isBalance)
    (sameQueue_fire hook)

/-- An answer, from the ledger `m` custody had come to. -/
theorem announces_announce {bundle : Bundle} {pending : List Bundle} {m : CustodyLedger}
    {status : TxStatus} (hpending : l.pending = bundle :: pending) (hterminal : status.isTerminal = true)
    (hlog : l.log.Extends isBalance m.log) (hqueued : m.pending = pending)
    (hresolved : ∀ nonce, nonce ≠ bundle.nonce → m.resolved nonce = l.resolved nonce) :
    Announces l (m.announce bundle.nonce status) where
  log := (hlog.imp fun _ => ChainPayload.ofCustody_of_isBalance).trans (ChainLog.extends_append _ rfl)
  queued b hb := by
    have hb : b ∈ m.pending := hb
    rw [hqueued] at hb
    rw [hpending]
    exact List.mem_cons_of_mem _ hb
  resolved nonce status' hs := by
    simp only [announce, Function.update_apply] at hs
    split at hs
    next heq =>
      obtain rfl := Option.some.inj hs
      exact .inr ⟨hterminal, ⟨bundle, by simp [hpending], heq.symm⟩, m.log,
        hlog.imp fun _ => ChainPayload.ofCustody_of_isBalance, heq ▸ .refl _⟩
    next hne => exact .inl (hresolved nonce hne ▸ hs)

theorem announces_includeNext : Announces l (l.includeNext hook now).2 := by
  have hcases := includeNext_cases l hook now
  generalize l.includeNext hook now = result at hcases
  cases hcases with
  | idle => exact .refl l
  | @bounced bundle pending existing hpending hresolved =>
      exact ⟨.refl _, fun b hb => hpending ▸ List.mem_cons_of_mem _ hb, fun _ _ => .inl⟩
  | @reverted bundle pending err hpending =>
      have hqueue := sameQueue_fire (l := { l with pending }) hook
      exact announces_announce hpending rfl (extends_fire (l := { l with pending }) hook) hqueue.pending
        fun nonce _ => congrFun hqueue.resolved nonce
  | @settled bundle pending receipt debits hpending =>
      have hqueue := sameQueue_fire (l := { l with pending }) hook
      have hlog : l.log.Extends isBalance (({ l with pending } : CustodyLedger).fire hook).log :=
        extends_fire (l := { l with pending }) hook
      have hbooks := (sameBooks_debitAll
        (l := ({ l with pending } : CustodyLedger).fire hook) debits).trans
          (sameBooks_logBalances (debits.map Prod.fst))
      refine announces_announce hpending rfl ?_ (hbooks.pending.trans hqueue.pending) fun nonce hne => ?_
      · exact hlog.trans (extends_commitBundle bundle debits)
      · rw [resolved_commitBundle, Function.update_of_ne hne]
        exact congrFun hqueue.resolved nonce

/-- Any operation that neither takes a bundle nor settles one past the queue. -/
theorem announces_perform {op : CustodyOp} (hop : op.carries = false) :
    Announces l (l.perform op) := by
  cases op with
  | ledger op =>
      have hfire : Announces l (l.fire [op]) := announces_fire
      exact hfire
  | submit => cases hop
  | includeNext hook now => exact announces_includeNext
  | includeAll hook clock =>
      exact includeRest_induct (P := Announces l) (fun _ _ h => h.trans announces_includeNext) _ (.refl l)
  | dropNextSubmission =>
      rw [perform, dropNextSubmission]
      split
      · exact .refl l
      next bundle pending heq =>
        exact ⟨.refl _, fun b hb => heq ▸ List.mem_cons_of_mem _ hb, fun _ _ => .inl⟩
  | precheck => exact .refl l
  | settle => cases hop

end CustodyLedger

end RfqSettlement
