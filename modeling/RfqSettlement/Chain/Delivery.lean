/-
  RfqSettlement.Chain.Delivery

  What the indexer delivers of the log, over whole runs.

  `Tail` is a log with the indexer that follows it, the entries delivered so far
  and the largest horizon drained.  While a reorg stays above every horizon
  drained, what was delivered is a prefix of the log: every surviving entry is
  delivered once, in order, and only when it is deep enough.
-/

import RfqSettlement.Chain.Log
import RfqSettlement.Lib.Feed

namespace RfqSettlement

namespace Indexer

variable {indexer : Indexer} {log : ChainLog} {horizon : Nat} {entries : List ChainEvent}

/-- An entry deep enough for `horizon`. -/
def deep (horizon : Nat) (entry : ChainEvent) : Bool := decide (entry.block ≤ horizon)

/-- The entries one pass of `drain` delivers. -/
def passFrom (horizon : Nat) (entries : List ChainEvent) (indexer : Indexer) : List ChainEvent :=
  Feed.walk ChainEvent.key (deep horizon) indexer.delivered entries

def pass (indexer : Indexer) (log : ChainLog) : List ChainEvent :=
  match indexer.horizon log.head with
  | none => []
  | some horizon => passFrom horizon (log.entries.drop indexer.cursor) indexer

theorem drainFrom_commands :
    (drainFrom horizon entries indexer).1 = (passFrom horizon entries indexer).map translate := by
  unfold passFrom
  induction entries generalizing indexer with
  | nil => rfl
  | cons entry entries ih =>
      unfold drainFrom Feed.walk
      by_cases hdeep : horizon < entry.block
      · simp [deep, hdeep, Nat.not_le.mpr hdeep]
      · by_cases hseen : entry.key ∈ indexer.delivered
        · simp [deep, hdeep, Nat.not_lt.mp hdeep, hseen, ih]
        · simp [deep, hdeep, Nat.not_lt.mp hdeep, hseen, ih]

/-- What a drain delivers is in the log. -/
theorem mem_of_drain {command : Command} (h : command ∈ (indexer.drain log).1) :
    ∃ entry ∈ log.entries, translate entry = command := by
  unfold drain at h
  split at h
  · cases h
  next horizon _ =>
    rw [drainFrom_commands] at h
    obtain ⟨entry, hentry, rfl⟩ := List.mem_map.mp h
    exact ⟨entry, List.mem_of_mem_drop (Feed.walk_sublist.subset hentry), rfl⟩

theorem drainFrom_cursor :
    (drainFrom horizon entries indexer).2.cursor =
      indexer.cursor + (entries.takeWhile (deep horizon)).length := by
  induction entries generalizing indexer with
  | nil => rfl
  | cons entry entries ih =>
      unfold drainFrom
      by_cases hdeep : horizon < entry.block
      · simp [deep, hdeep, Nat.not_le.mpr hdeep]
      · have hready : deep horizon entry = true := by simpa [deep] using hdeep
        by_cases hseen : entry.key ∈ indexer.delivered
        · simp only [hdeep, hseen, if_true, if_false, ih, List.takeWhile_cons, hready,
            List.length_cons]
          omega
        · simp only [hdeep, hseen, if_false, ih, List.takeWhile_cons, hready, if_true,
            List.length_cons]
          omega

/-- The keys a pass leaves delivered: those that were, and those of what it delivers. -/
theorem mem_delivered_drainFrom {k : Nat × Nat} :
    k ∈ (drainFrom horizon entries indexer).2.delivered ↔
      k ∈ indexer.delivered ∨ ∃ x ∈ passFrom horizon entries indexer, x.key = k := by
  unfold passFrom
  induction entries generalizing indexer with
  | nil => simp [drainFrom, Feed.walk]
  | cons entry entries ih =>
      unfold drainFrom Feed.walk
      by_cases hdeep : horizon < entry.block
      · simp [deep, hdeep, Nat.not_le.mpr hdeep]
      · have hready : deep horizon entry = true := by simpa [deep] using hdeep
        by_cases hseen : entry.key ∈ indexer.delivered
        · simp only [hdeep, if_false, hseen, if_true, hready, ih]
        · simp only [hdeep, if_false, hseen, hready, if_true, ih, List.mem_cons]
          constructor
          · rintro ((rfl | hk) | ⟨x, hx, hk⟩)
            · exact .inr ⟨entry, .inl rfl, rfl⟩
            · exact .inl hk
            · exact .inr ⟨x, .inr hx, hk⟩
          · rintro (hk | ⟨x, rfl | hx, hk⟩)
            · exact .inl (.inr hk)
            · exact .inl (.inl hk.symm)
            · exact .inr ⟨x, hx, hk⟩

theorem drainFrom_delivered (indexer : Indexer) {read : List ChainEvent}
    (h : Feed.Seen ChainEvent.key indexer.delivered read) :
    Feed.Seen ChainEvent.key (drainFrom horizon entries indexer).2.delivered
      (read ++ passFrom horizon entries indexer) := by
  intro k
  rw [mem_delivered_drainFrom, h k]
  simp only [List.mem_append]
  constructor
  · rintro (⟨x, hx, hk⟩ | ⟨x, hx, hk⟩)
    · exact ⟨x, .inl hx, hk⟩
    · exact ⟨x, .inr hx, hk⟩
  · rintro ⟨x, hx | hx, hk⟩
    · exact .inl ⟨x, hx, hk⟩
    · exact .inr ⟨x, hx, hk⟩

theorem drainFrom_confirmations :
    (drainFrom horizon entries indexer).2.confirmations = indexer.confirmations := by
  induction entries generalizing indexer with
  | nil => rfl
  | cons entry entries ih =>
      unfold drainFrom
      dsimp only
      split
      · rfl
      · split
        · exact ih
        · exact ih

theorem horizon_eq_some {head : Nat} (h : indexer.horizon head = some horizon) :
    horizon + indexer.confirmations = head := by
  obtain ⟨hle, rfl⟩ := checkedSub_eq_some.mp h
  omega

end Indexer

-- ============================================================================
-- The order of the log
-- ============================================================================

/-- Entries stand in block order up to the head, each under a key of its own. -/
structure ChainLog.Ordered (log : ChainLog) : Prop where
  sorted : log.entries.Pairwise fun a b => a.block ≤ b.block
  below : ∀ x ∈ log.entries, x.block ≤ log.head
  keys : (log.entries.map ChainEvent.key).Nodup
  minted : ∀ x ∈ log.entries, x.txHash < log.nextTx
  head : log.head ≤ u64Max

namespace ChainLog

variable {log : ChainLog}

theorem ordered_new : new.Ordered := ⟨by simp [new], by simp [new], by simp [new], by simp [new], by decide⟩

theorem Ordered.advanceBlock (h : log.Ordered) : log.advanceBlock.Ordered where
  sorted := h.sorted
  below x hx := by
    have := h.below x hx
    have := h.head
    simp only [ChainLog.advanceBlock, saturatingAdd]
    omega
  keys := h.keys
  minted := h.minted
  head := Nat.min_le_right _ _

/-- Entries minted under the next hash, at the head, under different indices. -/
theorem Ordered.extend (h : log.Ordered) (hnext : log.nextTx < u64Max) {added : List ChainEvent}
    (hadded : ∀ x ∈ added, x.block = log.head ∧ x.txHash = log.nextTx)
    (hindices : (added.map ChainEvent.logIndex).Nodup) :
    Ordered { log with entries := log.entries ++ added, nextTx := saturatingAdd log.nextTx 1 } where
  sorted := by
    refine List.pairwise_append.mpr ⟨h.sorted, ?_, fun x hx y hy => ?_⟩
    · refine List.Pairwise.imp_of_mem (R := fun _ _ => True) (fun ha hb _ => ?_)
        (List.pairwise_of_forall fun _ _ => trivial)
      exact Nat.le_of_eq ((hadded _ ha).1.trans (hadded _ hb).1.symm)
    · rw [(hadded y hy).1]
      exact h.below x hx
  below x hx := by
    rcases List.mem_append.mp hx with hx | hx
    · exact h.below x hx
    · exact Nat.le_of_eq (hadded x hx).1
  keys := by
    rw [List.map_append, List.nodup_append]
    refine ⟨h.keys, ?_, ?_⟩
    · exact List.Nodup.of_map Prod.snd (by simpa [Function.comp_def, ChainEvent.key] using hindices)
    · rintro _ hxs _ hys heq
      obtain ⟨x, hx, rfl⟩ := List.mem_map.mp hxs
      obtain ⟨y, hy, rfl⟩ := List.mem_map.mp hys
      have hhash : x.txHash = y.txHash := congrArg Prod.fst heq
      have := h.minted x hx
      rw [hhash, (hadded y hy).2] at this
      omega
  minted x hx := by
    have hsat : saturatingAdd log.nextTx 1 = log.nextTx + 1 := by
      unfold saturatingAdd
      omega
    show x.txHash < saturatingAdd log.nextTx 1
    rw [hsat]
    rcases List.mem_append.mp hx with hx | hx
    · have := h.minted x hx
      omega
    · rw [(hadded x hx).2]
      omega
  head := h.head

theorem Ordered.append (h : log.Ordered) (hnext : log.nextTx < u64Max) (payload : ChainPayload) :
    (log.append payload).Ordered :=
  h.extend hnext (by simp) (by simp)

theorem Ordered.appendTransaction (h : log.Ordered) (hnext : log.nextTx < u64Max)
    {payloads : List ChainPayload} (hlen : payloads.length < 2 ^ 32) :
    (log.appendTransaction payloads).Ordered := by
  refine h.extend hnext (fun x hx => ?_) ?_
  · obtain ⟨⟨payload, index⟩, -, rfl⟩ := List.mem_map.mp hx
    exact ⟨rfl, rfl⟩
  · have hindices : (log.transaction payloads).map ChainEvent.logIndex =
        List.range' 0 payloads.length 1 := by
      rw [transaction, List.map_map, ← List.zipIdx_map_snd]
      apply List.map_congr_left
      rintro ⟨payload, index⟩ hmem
      have := List.snd_lt_of_mem_zipIdx hmem
      show min index u32Max = index
      simp only [u32Max]
      omega
    rw [hindices]
    exact List.nodup_range' 1 Nat.one_pos

theorem Ordered.reorg (h : log.Ordered) {block : Nat} (hblock : block ≤ log.head + 1) :
    (log.reorg block).Ordered where
  sorted := h.sorted.filter _
  below x hx := by
    have hlt : x.block < block := by simpa using (List.mem_filter.mp hx).2
    simp only [ChainLog.reorg, saturatingSub]
    omega
  keys := h.keys.sublist (List.filter_sublist.map _)
  minted x hx := h.minted x (List.mem_filter.mp hx).1
  head := by
    have := h.head
    simp only [ChainLog.reorg, saturatingSub]
    omega

end ChainLog

-- ============================================================================
-- Runs
-- ============================================================================

/-- A log and the indexer that follows it, with every command drained so far, the
    largest horizon drained at, and whether nothing was appended at or below it since. -/
structure Tail where
  log : ChainLog
  indexer : Indexer
  commands : List Command
  horizon : Option Nat
  caughtUp : Bool
deriving DecidableEq, Repr

namespace Tail

def new (confirmations : Nat) : Tail := ⟨.new, .new confirmations, [], none, true⟩

/-- What the two sides of the log can do. -/
inductive Op where
  | append (payload : ChainPayload)
  | appendTransaction (payloads : List ChainPayload)
  | advanceBlock
  | drain
  | rewind
  | reorg (block : Nat)

/-- A drain, and the largest horizon with it. -/
def drain (t : Tail) : Tail :=
  match t.indexer.horizon t.log.head with
  | none => t
  | some horizon =>
    { t with
      indexer := (t.indexer.drain t.log).2
      commands := t.commands ++ (t.indexer.drain t.log).1
      horizon := some (max (t.horizon.getD 0) horizon)
      caughtUp := t.caughtUp || decide (t.horizon.getD 0 ≤ horizon) }

/-- Whether what is appended now stands above every horizon drained. -/
def aboveDrained (t : Tail) : Bool := t.horizon.all fun horizon => decide (horizon < t.log.head)

def apply (t : Tail) : Op → Tail
  | .append payload =>
    { t with log := t.log.append payload, caughtUp := t.caughtUp && t.aboveDrained }
  | .appendTransaction payloads =>
    { t with log := t.log.appendTransaction payloads
             caughtUp := t.caughtUp && (payloads.isEmpty || t.aboveDrained) }
  | .advanceBlock => { t with log := t.log.advanceBlock }
  | .drain => t.drain
  | .rewind => { t with indexer := t.indexer.rewind }
  | .reorg block => { t with log := t.log.reorg block }

/-- A reorg stays above every horizon drained, and identities do not run out. -/
def Allowed (t : Tail) : Op → Prop
  | .append _ => t.log.nextTx < u64Max
  | .appendTransaction payloads => t.log.nextTx < u64Max ∧ payloads.length < 2 ^ 32
  | .reorg block => (∀ horizon, t.horizon = some horizon → horizon < block) ∧
      block ≤ t.log.head + 1
  | _ => True

inductive Run (confirmations : Nat) : Tail → Prop where
  | new : Run confirmations (new confirmations)
  | step {t : Tail} (h : Run confirmations t) (op : Op) (hallowed : t.Allowed op) :
      Run confirmations (t.apply op)

variable {t : Tail} {confirmations : Nat} {read unread : List ChainEvent}

/-- The log is what was delivered, followed by what was not. -/
structure Follows (t : Tail) (read unread : List ChainEvent) : Prop where
  entries : t.log.entries = read ++ unread
  commands : t.commands = read.map Indexer.translate
  seen : Feed.Seen ChainEvent.key t.indexer.delivered read
  cursor : t.indexer.cursor ≤ read.length
  deep : ∀ x ∈ read, ∃ horizon, t.horizon = some horizon ∧ x.block ≤ horizon
  caughtUp : t.caughtUp = true → ∀ horizon, t.horizon = some horizon →
    ∀ x ∈ unread, horizon < x.block
  -- what was appended below the largest horizon stands at it, where only a drain at it reads
  behind : t.caughtUp = false → ∃ x ∈ unread, t.horizon = some x.block
  reached : ∀ horizon, t.horizon = some horizon → horizon ≤ t.log.head
  ordered : t.log.Ordered

theorem follows_new : (new confirmations).Follows [] [] where
  entries := rfl
  commands := rfl
  seen := Feed.seen_nil
  cursor := Nat.le_refl _
  deep := by simp
  caughtUp := by simp
  behind := by simp [new]
  reached := by simp [new]
  ordered := ChainLog.ordered_new

theorem lt_head_of_aboveDrained {horizon : Nat} (h : t.aboveDrained = true)
    (hhorizon : t.horizon = some horizon) : horizon < t.log.head := by
  simpa [aboveDrained, hhorizon] using h

/-- An append at or below a horizon drained is one at the largest. -/
theorem Follows.horizon_eq_head (h : t.Follows read unread) (habove : t.aboveDrained = false) :
    t.horizon = some t.log.head := by
  cases hhorizon : t.horizon with
  | none => simp [aboveDrained, hhorizon] at habove
  | some horizon =>
      have hle := h.reached horizon hhorizon
      have hnot : t.log.head ≤ horizon := by simpa [aboveDrained, hhorizon] using habove
      rw [Nat.le_antisymm hle hnot]

/-- Entries appended are not read. -/
theorem Follows.extend (h : t.Follows read unread) {log : ChainLog} {added : List ChainEvent}
    (hentries : log.entries = t.log.entries ++ added) (hhead : log.head = t.log.head)
    (hadded : ∀ x ∈ added, x.block = t.log.head) (hordered : log.Ordered) :
    Follows { t with log, caughtUp := t.caughtUp && (added.isEmpty || t.aboveDrained) } read
      (unread ++ added) where
  entries := by rw [hentries, h.entries, List.append_assoc]
  commands := h.commands
  seen := h.seen
  cursor := h.cursor
  deep := h.deep
  caughtUp hcaught horizon hhorizon x hx := by
    obtain ⟨hcaught, habove⟩ := Bool.and_eq_true_iff.mp hcaught
    rcases List.mem_append.mp hx with hx | hx
    · exact h.caughtUp hcaught horizon hhorizon x hx
    · have hne : added.isEmpty = false := by simpa using List.ne_nil_of_mem hx
      rw [hne, Bool.false_or] at habove
      rw [hadded x hx]
      exact lt_head_of_aboveDrained habove hhorizon
  behind hbehind := by
    rcases Bool.and_eq_false_iff.mp hbehind with hbehind | hbehind
    · obtain ⟨x, hx, hhorizon⟩ := h.behind hbehind
      exact ⟨x, List.mem_append_left _ hx, hhorizon⟩
    · obtain ⟨hne, habove⟩ := Bool.or_eq_false_iff.mp hbehind
      obtain ⟨x, hx⟩ := List.exists_mem_of_ne_nil added (by simpa using hne)
      refine ⟨x, List.mem_append_right _ hx, ?_⟩
      rw [hadded x hx]
      exact h.horizon_eq_head habove
  reached horizon hhorizon := by
    rw [hhead]
    exact h.reached horizon hhorizon
  ordered := hordered

theorem declines_of_ordered (h : t.log.Ordered) (horizon : Nat) :
    Feed.Declines (Indexer.deep horizon) t.log.entries := by
  refine h.sorted.imp fun {a b} hle hb => ?_
  have hb : b.block ≤ horizon := by simpa [Indexer.deep] using hb
  simpa [Indexer.deep] using Nat.le_trans hle hb

/-- What a drain delivers is the deep entries of what was not read. -/
theorem Follows.pass (h : t.Follows read unread) (horizon : Nat) :
    Indexer.passFrom horizon (t.log.entries.drop t.indexer.cursor) t.indexer =
      unread.takeWhile (Indexer.deep horizon) := by
  have hdeclines := declines_of_ordered h.ordered horizon
  have hkeys := h.ordered.keys
  rw [h.entries] at hdeclines hkeys
  rw [Indexer.passFrom, h.entries, List.drop_append_of_le_length h.cursor]
  exact Feed.walk_behind hkeys h.seen hdeclines

theorem Follows.drain (h : t.Follows read unread) :
    ∃ more left, unread = more ++ left ∧ t.drain.Follows (read ++ more) left := by
  unfold Tail.drain
  cases hhorizon : t.indexer.horizon t.log.head with
  | none => exact ⟨[], unread, rfl, by simpa using h⟩
  | some horizon =>
      have hpass := h.pass horizon
      refine ⟨unread.takeWhile (Indexer.deep horizon), unread.dropWhile (Indexer.deep horizon),
        (List.takeWhile_append_dropWhile).symm, ?_⟩
      have hdrain : t.indexer.drain t.log =
          Indexer.drainFrom horizon (t.log.entries.drop t.indexer.cursor) t.indexer := by
        rw [Indexer.drain, hhorizon]
      constructor
      · rw [List.append_assoc, List.takeWhile_append_dropWhile]
        exact h.entries
      · show t.commands ++ (t.indexer.drain t.log).1 = _
        rw [hdrain, Indexer.drainFrom_commands, hpass, h.commands, List.map_append]
      · show Feed.Seen _ (t.indexer.drain t.log).2.delivered _
        rw [hdrain, ← hpass]
        exact Indexer.drainFrom_delivered _ h.seen
      · show (t.indexer.drain t.log).2.cursor ≤ _
        rw [hdrain, Indexer.drainFrom_cursor, h.entries, List.drop_append_of_le_length h.cursor]
        exact Feed.cursor_le h.cursor
      · intro x hx
        refine ⟨_, rfl, ?_⟩
        rcases List.mem_append.mp hx with hx | hx
        · obtain ⟨largest, hlargest, hle⟩ := h.deep x hx
          rw [hlargest]
          exact Nat.le_trans hle (Nat.le_max_left _ _)
        · have hdeep : x.block ≤ horizon := by
            simpa [Indexer.deep] using List.mem_takeWhile_imp hx
          exact Nat.le_trans hdeep (Nat.le_max_right _ _)
      · -- past what was taken nothing is deep enough for this drain
        have hdeclines := declines_of_ordered h.ordered horizon
        rw [h.entries] at hdeclines
        intro hcaught largest hlargest x hx
        have hnot : horizon < x.block := by
          have hrest : Feed.Declines (Indexer.deep horizon) unread :=
            (List.pairwise_append.mp hdeclines).2.1
          simpa [Indexer.deep] using hrest.not_ready hx
        have hx : x ∈ unread := (List.dropWhile_sublist _).subset hx
        obtain rfl := Option.some.inj hlargest
        rcases Bool.or_eq_true_iff.mp hcaught with hcaught | hle
        · cases hold : t.horizon with
          | none => simpa using hnot
          | some old =>
              have := h.caughtUp hcaught old hold x hx
              simp only [Option.getD_some]
              omega
        · have hle : t.horizon.getD 0 ≤ horizon := by simpa using hle
          omega
      · intro hbehind
        obtain ⟨hbehind, hle⟩ := Bool.or_eq_false_iff.mp hbehind
        obtain ⟨x, hx, hlargest⟩ := h.behind hbehind
        have hlt : horizon < x.block := by simpa [hlargest] using hle
        refine ⟨x, ?_, ?_⟩
        · have hsplit := List.takeWhile_append_dropWhile (p := Indexer.deep horizon) (l := unread)
          rw [← hsplit] at hx
          rcases List.mem_append.mp hx with hx | hx
          · have hdeep : x.block ≤ horizon := by
              simpa [Indexer.deep] using List.mem_takeWhile_imp hx
            omega
          · exact hx
        · show some (max (t.horizon.getD 0) horizon) = some x.block
          rw [hlargest, Option.getD_some, Nat.max_eq_left (Nat.le_of_lt hlt)]
      · intro largest hlargest
        obtain rfl := Option.some.inj hlargest
        have hreached : horizon ≤ t.log.head := by
          rw [← Indexer.horizon_eq_some hhorizon]
          exact Nat.le_add_right _ _
        refine Nat.max_le.mpr ⟨?_, hreached⟩
        cases hold : t.horizon with
        | none => exact Nat.zero_le _
        | some old => exact h.reached old hold
      · exact h.ordered

/-- A reorg above everything drained leaves everything delivered. -/
theorem Follows.reorg (h : t.Follows read unread) {block : Nat}
    (hallowed : t.Allowed (.reorg block)) :
    (t.apply (.reorg block)).Follows read
      (unread.filter fun entry => decide (entry.block < block)) where
  entries := by
    have hkept : read.filter (fun entry => decide (entry.block < block)) = read := by
      apply List.filter_eq_self.mpr
      intro x hx
      obtain ⟨horizon, hhorizon, hle⟩ := h.deep x hx
      have := hallowed.1 horizon hhorizon
      exact decide_eq_true (by omega)
    show (t.log.entries.filter _) = _
    rw [h.entries, List.filter_append, hkept]
  commands := h.commands
  seen := h.seen
  cursor := h.cursor
  deep := h.deep
  caughtUp hcaught horizon hhorizon x hx :=
    h.caughtUp hcaught horizon hhorizon x (List.mem_filter.mp hx).1
  behind hbehind := by
    obtain ⟨x, hx, hhorizon⟩ := h.behind hbehind
    exact ⟨x, List.mem_filter.mpr ⟨hx, decide_eq_true (hallowed.1 _ hhorizon)⟩, hhorizon⟩
  reached horizon hhorizon := by
    have := hallowed.1 horizon hhorizon
    show horizon ≤ saturatingSub block 1
    unfold saturatingSub
    omega
  ordered := h.ordered.reorg hallowed.2

theorem Follows.apply (h : t.Follows read unread) (op : Op) (hallowed : t.Allowed op) :
    ∃ read' unread', (t.apply op).Follows read' unread' := by
  cases op with
  | append payload =>
      have hentries : (t.log.append payload).entries =
          t.log.entries ++ [⟨t.log.head, t.log.nextTx, 0, payload⟩] := rfl
      exact ⟨_, _, h.extend hentries rfl (by simp) (h.ordered.append hallowed payload)⟩
  | appendTransaction payloads =>
      have hblock : ∀ x ∈ t.log.transaction payloads, x.block = t.log.head := by
        intro x hx
        obtain ⟨⟨payload, index⟩, -, rfl⟩ := List.mem_map.mp hx
        rfl
      have hempty : (t.log.transaction payloads).isEmpty = payloads.isEmpty := by
        cases payloads <;> rfl
      have hentries : (t.log.appendTransaction payloads).entries =
          t.log.entries ++ t.log.transaction payloads := rfl
      have hextend := h.extend hentries rfl hblock
        (h.ordered.appendTransaction hallowed.1 hallowed.2)
      rw [hempty] at hextend
      exact ⟨_, _, hextend⟩
  | advanceBlock =>
      refine ⟨_, _, { h with reached := fun horizon hhorizon => ?_
                             ordered := h.ordered.advanceBlock }⟩
      have := h.reached horizon hhorizon
      have := h.ordered.head
      show horizon ≤ saturatingAdd t.log.head 1
      unfold saturatingAdd
      omega
  | drain =>
      obtain ⟨more, left, -, hdrain⟩ := h.drain
      exact ⟨_, _, hdrain⟩
  | rewind => exact ⟨_, _, { h with cursor := Nat.zero_le _ }⟩
  | reorg block => exact ⟨_, _, h.reorg hallowed⟩

theorem follows_of_run (h : Run confirmations t) : ∃ read unread, t.Follows read unread := by
  induction h with
  | new => exact ⟨_, _, follows_new⟩
  | step _ op hallowed ih =>
      obtain ⟨read, unread, hfollows⟩ := ih
      exact hfollows.apply op hallowed

/-- What a drain returns, entry by entry: none was delivered before, and each is
    under `confirmations` further blocks. -/
theorem Follows.drained (h : t.Follows read unread) :
    ∃ more : List ChainEvent, (t.indexer.drain t.log).1 = more.map Indexer.translate ∧
      ∀ x ∈ more, x ∈ t.log.entries ∧ x.key ∉ t.indexer.delivered ∧
        x.block + t.indexer.confirmations ≤ t.log.head := by
  unfold Indexer.drain
  cases hhorizon : t.indexer.horizon t.log.head with
  | none => exact ⟨[], rfl, by simp⟩
  | some horizon =>
      refine ⟨_, Indexer.drainFrom_commands.trans (congrArg _ (h.pass horizon)), fun x hx => ?_⟩
      have hmem : x ∈ unread := (List.takeWhile_sublist _).subset hx
      have hdeep : x.block ≤ horizon := by simpa [Indexer.deep] using List.mem_takeWhile_imp hx
      have := Indexer.horizon_eq_some hhorizon
      refine ⟨by simp [h.entries, hmem], fun hseen => ?_, by omega⟩
      obtain ⟨y, hy, hkey⟩ := (h.seen _).mp hseen
      have hkeys := h.ordered.keys
      rw [h.entries, List.map_append, List.nodup_append] at hkeys
      exact hkeys.2.2 _ (List.mem_map_of_mem hy) _ (List.mem_map_of_mem hmem) hkey

theorem confirmations_of_run (h : Run confirmations t) : t.indexer.confirmations = confirmations := by
  induction h with
  | new => rfl
  | @step t _ op _ ih =>
      cases op with
      | drain =>
          refine Eq.trans ?_ ih
          simp only [apply, drain]
          cases hhorizon : t.indexer.horizon t.log.head with
          | none => rfl
          | some horizon =>
              simp only [Indexer.drain, hhorizon]
              exact Indexer.drainFrom_confirmations
      | _ => exact ih

/-- What was delivered is the log up to the largest horizon drained, unless something
    was appended at or below it since. -/
theorem Follows.caughtUp_iff (h : t.Follows read unread) :
    t.caughtUp = true ↔ ∀ horizon, t.horizon = some horizon →
      t.commands = (t.log.entries.filter fun entry => decide (entry.block ≤ horizon)).map
        Indexer.translate := by
  have hread : ∀ horizon, t.horizon = some horizon →
      read.filter (fun entry => decide (entry.block ≤ horizon)) = read := by
    intro horizon hhorizon
    apply List.filter_eq_self.mpr
    intro x hx
    obtain ⟨_, hsome, hle⟩ := h.deep x hx
    rw [hhorizon, Option.some.injEq] at hsome
    exact decide_eq_true (hsome ▸ hle)
  constructor
  · intro hcaught horizon hhorizon
    have hunread : unread.filter (fun entry => decide (entry.block ≤ horizon)) = [] := by
      apply List.filter_eq_nil_iff.mpr
      intro x hx
      have := h.caughtUp hcaught horizon hhorizon x hx
      simp only [decide_eq_true_eq]
      omega
    rw [h.commands, h.entries, List.filter_append, hread horizon hhorizon, hunread, List.append_nil]
  · intro hexact
    by_contra hbehind
    -- an entry at the largest horizon that was not read makes the log longer than the commands
    obtain ⟨x, hx, hhorizon⟩ := h.behind (by simpa using hbehind)
    have hlength := congrArg List.length (hexact _ hhorizon)
    rw [h.commands, h.entries, List.filter_append, hread _ hhorizon, List.length_map,
      List.length_map, List.length_append] at hlength
    have hmem : x ∈ unread.filter fun entry => decide (entry.block ≤ x.block) :=
      List.mem_filter.mpr ⟨hx, decide_eq_true (Nat.le_refl _)⟩
    have := List.length_pos_of_mem hmem
    omega

/-- What was delivered is always the translation of a first part of the log, up to
    the largest horizon drained, and is all of the log up to there exactly if nothing
    was appended at or below it since; a drain adds entries never delivered that are
    deep enough; and nothing a reorg may remove was ever delivered. -/
theorem delivers_once (h : Run confirmations t) :
    (∃ read unread : List ChainEvent, t.log.entries = read ++ unread ∧
      t.commands = read.map Indexer.translate ∧
      ∀ x ∈ read, ∃ horizon, t.horizon = some horizon ∧ x.block ≤ horizon) ∧
    (t.caughtUp = true ↔ ∀ horizon, t.horizon = some horizon →
      t.commands = (t.log.entries.filter fun entry => decide (entry.block ≤ horizon)).map
        Indexer.translate) ∧
    (∃ more : List ChainEvent, (t.indexer.drain t.log).1 = more.map Indexer.translate ∧
      ∀ x ∈ more, x ∈ t.log.entries ∧ x.key ∉ t.indexer.delivered ∧
        x.block + confirmations ≤ t.log.head) ∧
    ∀ block, t.Allowed (.reorg block) → ∀ x ∈ t.log.entries, block ≤ x.block →
      x.key ∉ t.indexer.delivered := by
  obtain ⟨read, unread, hfollows⟩ := follows_of_run h
  have hdrained := hfollows.drained
  rw [confirmations_of_run h] at hdrained
  refine ⟨⟨read, unread, hfollows.entries, hfollows.commands, hfollows.deep⟩,
    hfollows.caughtUp_iff, hdrained, ?_⟩
  intro block hallowed x hx hblock hseen
  obtain ⟨y, hy, hkey⟩ := (hfollows.seen _).mp hseen
  have hy' : y ∈ t.log.entries := by simp [hfollows.entries, hy]
  obtain rfl := List.inj_on_of_nodup_map hfollows.ordered.keys hy' hx hkey
  obtain ⟨horizon, hhorizon, hle⟩ := hfollows.deep y hy
  have := hallowed.1 horizon hhorizon
  omega

/-- A drain, a reorg just above its horizon, and an entry mined where the drain had
    read; the last drain finds the chain too young. -/
def remined : List Op :=
  [.append (.balanceChanged 0 5), .advanceBlock, .drain, .reorg 1, .append (.balanceChanged 1 7),
    .drain]

/-- The states of a run of one-block confirmations, operation by operation. -/
def remine (n : Nat) : Tail := (remined.take n).foldl apply (new 1)

theorem run_remine_drained : Run 1 (remine 3) := by
  have h0 : Run 1 (remine 0) := .new
  have h1 : Run 1 (remine 1) :=
    h0.step (.append (.balanceChanged 0 5)) (show (remine 0).log.nextTx < u64Max by decide)
  have h2 : Run 1 (remine 2) := h1.step .advanceBlock trivial
  exact h2.step .drain trivial

theorem run_remine : Run 1 (remine 6) := by
  have h4 : Run 1 (remine 4) := run_remine_drained.step (.reorg 1) ⟨by decide, by decide⟩
  have h5 : Run 1 (remine 5) :=
    h4.step (.append (.balanceChanged 1 7)) (show (remine 4).log.nextTx < u64Max by decide)
  exact h5.step .drain trivial

/-- After its first drain this run has delivered what stands at block zero. -/
theorem delivers_once_drained :
    (remine 3).commands = ((remine 3).log.entries.filter fun entry => decide (entry.block ≤ 0)).map
      Indexer.translate :=
  (delivers_once run_remine_drained).2.1.mp (by decide) 0 (by decide)

/-- An entry mined again at a block already drained waits for a deeper drain. -/
theorem remined_entry_waits :
    ¬ ∀ (confirmations : Nat) (t : Tail), Run confirmations t →
      ∀ horizon, t.horizon = some horizon →
        t.commands = (t.log.entries.filter fun entry => decide (entry.block ≤ horizon)).map
          Indexer.translate := by
  intro h
  exact absurd (h 1 (remine 6) run_remine 0 (by decide)) (by decide)

end Tail

end RfqSettlement
