/-
  RfqSettlement.Core.Unmirrored

  The ledger apart from what the chain says: no mirrored balance and no contract.

  A sweep reads neither.  So a ledger swept after the chain has spoken is, apart from what
  the chain said, the ledger swept alone (`unmirrored_releaseExpired`).
-/

import RfqSettlement.Core.BestExecution
import RfqSettlement.Core.Resolution
import RfqSettlement.Core.Telling

namespace RfqSettlement

/-- News of a contract, or a payout that is due. -/
def Event.ofContract : Event → Bool
  | .settleIntent .. | .contractResolved .. => true
  | _ => false

def MirroredBalance.unmirrored (m : MirroredBalance) : MirroredBalance := { m with free := 0 }

namespace Ledger

variable {l : Ledger} {account amount index now : Nat} {claim : ResIdx}

def unmirrored (l : Ledger) : Ledger :=
  { l with accounts := l.accounts.map MirroredBalance.unmirrored, contracts := [] }

@[simp] theorem account_unmirrored (a : Nat) :
    l.unmirrored.account a = (l.account a).map MirroredBalance.unmirrored :=
  List.getElem?_map

/-- A write that does not look at the mirrored balance. -/
theorem unmirrored_modifyAccount (l : Ledger) (account : Nat) (f : MirroredBalance → MirroredBalance)
    (hf : ∀ m, (f m).unmirrored = f m.unmirrored) :
    (l.modifyAccount account f).unmirrored = l.unmirrored.modifyAccount account f := by
  have haccounts : (l.accounts.modify account f).map MirroredBalance.unmirrored =
      (l.accounts.map MirroredBalance.unmirrored).modify account f := by
    refine List.ext_getElem? fun i => ?_
    simp only [List.getElem?_map, List.getElem?_modify]
    split
    · cases l.accounts[i]? with
      | none => rfl
      | some m => exact congrArg some (hf m)
    · simp
  simp only [unmirrored, modifyAccount, haccounts]

/-- A mirror update is not seen. -/
theorem unmirrored_mirror (free : Nat) :
    (l.modifyAccount account fun m => { m with free }).unmirrored = l.unmirrored := by
  have haccounts : (l.accounts.modify account fun m => { m with free }).map MirroredBalance.unmirrored =
      l.accounts.map MirroredBalance.unmirrored := by
    refine List.ext_getElem? fun i => ?_
    simp only [List.getElem?_map, List.getElem?_modify]
    split
    · cases l.accounts[i]? <;> rfl
    · simp
  simp only [unmirrored, modifyAccount, haccounts]

theorem unmirrored_lowerReserved :
    (l.lowerReserved account amount).unmirrored = l.unmirrored.lowerReserved account amount := by
  have hall : ((l.unmirrored.account account).all fun e => decide (amount ≤ e.reserved)) =
      (l.account account).all fun e => decide (amount ≤ e.reserved) := by
    rw [account_unmirrored, Option.all_map]
    rfl
  unfold lowerReserved
  have hlowered := unmirrored_modifyAccount l account
    (fun e => { e with reserved := saturatingSub e.reserved amount }) fun _ => rfl
  rw [hall]
  exact congrArg (Ledger.debugAssert · _) hlowered

theorem unmirrored_unlinkFromChain :
    (l.unlinkFromChain account index).unmirrored = l.unmirrored.unlinkFromChain account index := by
  unfold unlinkFromChain
  rw [show l.unmirrored.reservationAt index = l.reservationAt index from rfl]
  cases (l.reservationAt index).map Reservation.neighbours with
  | none => rfl
  | some ends =>
      obtain ⟨prev, next⟩ := ends
      cases prev with
      | some i =>
          cases next with
          | some j => rfl
          | none =>
              have htail := unmirrored_modifyAccount (l.modifyReservationAt i fun r => r.setNext none)
                account (fun e => { e with expiryTail := some i }) fun _ => rfl
              exact congrArg (Ledger.modifyReservationAt · index _) htail
      | none =>
          cases next with
          | some j =>
              have hhead := unmirrored_modifyAccount l account
                (fun e => { e with expiryHead := some j }) fun _ => rfl
              exact congrArg
                (fun l : Ledger => (l.modifyReservationAt j _).modifyReservationAt index _) hhead
          | none =>
              have hhead := unmirrored_modifyAccount l account
                (fun e => { e with expiryHead := none }) fun _ => rfl
              have htail := unmirrored_modifyAccount
                (l.modifyAccount account fun e => { e with expiryHead := none }) account
                (fun e => { e with expiryTail := none }) fun _ => rfl
              rw [hhead] at htail
              exact congrArg (Ledger.modifyReservationAt · index _) htail

theorem unmirrored_setOwnerClaim (owner : ResOwner) (held : Option ResIdx) :
    (l.setOwnerClaim owner held).unmirrored = l.unmirrored.setOwnerClaim owner held := by
  cases owner <;> rfl

theorem unmirrored_reclaim (v : Reservation) :
    (l.reclaim account claim v).unmirrored = l.unmirrored.reclaim account claim v := by
  unfold reclaim
  dsimp only
  rw [← unmirrored_unlinkFromChain, ← unmirrored_lowerReserved, ← unmirrored_setOwnerClaim]
  rfl

theorem unmirrored_releaseExpiredFrom (fuel : Nat) (cursor : Link) (reclaimed : Nat) :
    (l.releaseExpiredFrom account now fuel cursor reclaimed).2.unmirrored =
      (l.unmirrored.releaseExpiredFrom account now fuel cursor reclaimed).2 := by
  induction fuel generalizing l cursor reclaimed with
  | zero => cases cursor <;> rfl
  | succ fuel ih =>
      cases cursor with
      | none => rfl
      | some index =>
          simp only [releaseExpiredFrom]
          rw [show l.unmirrored.reservationAt index = l.reservationAt index from rfl,
            show l.unmirrored.reservations = l.reservations from rfl]
          cases l.reservationAt index with
          | none => rfl
          | some v =>
              dsimp only
              cases v.isExpiredAt now with
              | none => rfl
              | some expired =>
                  cases expired with
                  | false => rfl
                  | true =>
                      dsimp only
                      cases l.reservations.handleAt index with
                      | none => rfl
                      | some handle =>
                          dsimp only
                          rw [ih, unmirrored_reclaim]

/-- A sweep does not look at what the chain says. -/
theorem unmirrored_releaseExpired :
    (l.releaseExpired account now).2.unmirrored = (l.unmirrored.releaseExpired account now).2 := by
  unfold releaseExpired
  rw [account_unmirrored]
  cases l.account account with
  | none => rfl
  | some m => exact unmirrored_releaseExpiredFrom _ _ _

/-- Ledgers that differ in nothing else and agree on the balances differ in contracts only. -/
theorem eq_of_unmirrored {l' : Ledger} (h : l.unmirrored = l'.unmirrored)
    (hfree : ∀ a m m', l.account a = some m → l'.account a = some m' → m.free = m'.free) :
    l = { l' with contracts := l.contracts } := by
  have haccounts : l.accounts = l'.accounts := by
    refine List.ext_getElem? fun a => ?_
    have hrest := congrArg (fun l : Ledger => l.account a) h
    simp only [account_unmirrored] at hrest
    have hfree := hfree a
    rw [Ledger.account, Ledger.account] at hrest hfree
    cases hm : l.accounts[a]? with
    | none =>
        rw [hm] at hrest
        exact (Option.map_eq_none_iff.mp hrest.symm).symm
    | some m =>
        rw [hm, Option.map_some] at hrest
        obtain ⟨m', hm', hsame⟩ := Option.map_eq_some_iff.mp hrest.symm
        rw [hm']
        obtain ⟨free, reserved, committed, head, tail⟩ := m
        obtain ⟨free', reserved', committed', head', tail'⟩ := m'
        obtain rfl : free = free' := hfree _ _ hm hm'
        simp only [MirroredBalance.unmirrored, MirroredBalance.mk.injEq, true_and] at hsame
        obtain ⟨rfl, rfl, rfl, rfl⟩ := hsame
        rfl
  obtain ⟨accounts, contracts, reservations, requests, quotes, sound⟩ := l
  obtain ⟨accounts', contracts', reservations', requests', quotes', sound'⟩ := l'
  obtain rfl : accounts = accounts' := haccounts
  simp only [unmirrored, Ledger.mk.injEq, true_and] at h
  obtain ⟨rfl, rfl, rfl, rfl⟩ := h
  rfl

end Ledger

-- ============================================================================
-- The engine swept
-- ============================================================================

namespace Engine

variable {e e' : Engine} {input : Input} {inputs : List Input} {command : Command}

/-- The engine with the accounts of each command swept at its instant, and no command
    performed. -/
def sweptFor (e : Engine) (inputs : List Input) : Engine := inputs.foldl normalisedFor e

theorem unmirrored_normaliseAll (accounts : List Nat) (now : Nat)
    (h : e.ledger.unmirrored = e'.ledger.unmirrored) :
    (e.normaliseAll accounts now).ledger.unmirrored =
      (e'.normaliseAll accounts now).ledger.unmirrored := by
  induction accounts generalizing e e' with
  | nil => exact h
  | cons account accounts ih =>
      refine ih ?_
      show (e.ledger.releaseExpired account now).2.unmirrored =
        (e'.ledger.releaseExpired account now).2.unmirrored
      rw [Ledger.unmirrored_releaseExpired, h, Ledger.unmirrored_releaseExpired]

/-- A command is addressed to requests and quotes. -/
theorem touchedAccounts_unmirrored (h : e.ledger.unmirrored = e'.ledger.unmirrored) :
    e.touchedAccounts command = e'.touchedAccounts command := by
  have hrequest : e.ledger.request = e'.ledger.request := by
    have hsame := congrArg Ledger.request h
    exact hsame
  have hquote : e.ledger.quote = e'.ledger.quote := by
    have hsame := congrArg Ledger.quote h
    exact hsame
  have hnonce : resolveNonce e.ledger = resolveNonce e'.ledger := by
    have hsame := congrArg resolveNonce h
    exact hsame
  cases command <;> simp only [touchedAccounts, hrequest, hquote, hnonce]

theorem unmirrored_normalisedFor (h : e.ledger.unmirrored = e'.ledger.unmirrored) :
    (e.normalisedFor input).ledger.unmirrored = (e'.normalisedFor input).ledger.unmirrored := by
  unfold normalisedFor
  rw [touchedAccounts_unmirrored h]
  exact unmirrored_normaliseAll _ _ h

theorem unmirrored_sweptFor (h : e.ledger.unmirrored = e'.ledger.unmirrored) :
    (e.sweptFor inputs).ledger.unmirrored = (e'.sweptFor inputs).ledger.unmirrored := by
  induction inputs generalizing e e' with
  | nil => exact h
  | cons input inputs ih => exact ih (unmirrored_normalisedFor h)

/-- Sweeps leave requests and quotes, but for the claims they hold. -/
theorem Sane.sameRecords_sweptFor (h : e.Sane) (inputs : List Input) :
    Ledger.SameRecords e.ledger (e.sweptFor inputs).ledger := by
  induction inputs generalizing e with
  | nil => exact .refl _
  | cons input inputs ih =>
      exact (h.sameRecords_normalisedFor input).trans (ih (h.normalised input.command input.now).sane)

/-- Sweeps leave the mirrored balances. -/
theorem Sane.free_sweptFor {a : Nat} {m m' : MirroredBalance} (h : e.Sane)
    (hm : e.ledger.account a = some m) (hm' : (e.sweptFor inputs).ledger.account a = some m') :
    m'.free = m.free := by
  induction inputs generalizing e m with
  | nil =>
      obtain rfl := Option.some.inj (hm.symm.trans hm')
      rfl
  | cons input inputs ih =>
      have hn := h.normalised input.command input.now
      have ht : e.market.totals a = some m.totals := by
        show (e.ledger.account a).map _ = _
        rw [hm]
        rfl
      obtain ⟨t₁, ht₁, hmove⟩ := (hn.steps .calm).totals ht
      obtain ⟨m₁, hm₁, rfl⟩ := Option.map_eq_some_iff.mp ht₁
      have hfree : m₁.free = m.free := hmove.free.elim id fun hcredit => nomatch hcredit
      exact (ih hn.sane hm₁ hm').trans hfree

-- ============================================================================
-- What the chain has said before
-- ============================================================================

/-- A command of the chain with no settlement left to answer. -/
def Stale (e : Engine) : Command → Prop
  | .creditAccount .. | .reportOracleStatus .. | .settleEscrow .. => True
  | .pollSettlement nonce _ => ∀ r y deadline, e.ledger.request r = some y →
      y.state ≠ .settling nonce deadline
  | _ => False

/-- Asked about a nonce under which nothing settles, the engine refuses. -/
theorem pollSettlement_refused {nonce : Nonce} {status : TxStatus} {now : Nat} {events : EventBuffer}
    (hnone : ∀ r y deadline, e.ledger.request r = some y → y.state ≠ .settling nonce deadline) :
    ∃ err, e.pollSettlement nonce status now events = e.refuse events err := by
  unfold pollSettlement
  split
  · exact ⟨_, rfl⟩
  next r _ =>
  split
  · exact ⟨_, rfl⟩
  next y hy =>
  split
  next settles deadline hstate =>
    split
    · exact ⟨_, rfl⟩
    next hsame =>
      obtain rfl : settles = nonce := by simpa using hsame
      exact absurd hstate (hnone r y deadline hy)
  next => exact ⟨_, rfl⟩

theorem Stale.normalised (h : e.Sane) (hstale : e.Stale input.command) :
    (e.normalisedFor input).Stale input.command := by
  generalize hn : e.normalisedFor input = n
  generalize input.command = command at hstale ⊢
  cases command with
  | pollSettlement nonce status =>
      intro r y deadline hy hstate
      subst hn
      obtain ⟨y', hy', hbare⟩ := (h.sameRecords_normalisedFor input).request hy
      have hsame : y.state = y'.state := congrArg (fun y => y.state) hbare
      exact hstale r y' deadline hy' (hsame.symm.trans hstate)
  | _ => exact hstale

/-- Said again, it leaves what the sweep of its accounts leaves, apart from what the chain
    says, and the engine announces nothing but contracts and payouts. -/
theorem Sane.stale_step (h : e.Sane) (hstale : e.Stale input.command) :
    (e.step input).ledger.unmirrored = (e.normalisedFor input).ledger.unmirrored ∧
      ∀ event ∈ e.emits input, event.ofContract = true := by
  have hstale := hstale.normalised h
  have hanswer : e.answer input =
      (e.normalisedFor input).perform input.command input.now (.withCapacity input.capacity) := rfl
  rw [step, emits, hanswer]
  generalize e.normalisedFor input = n at hstale ⊢
  obtain ⟨new, hevents, hpushed⟩ : EventBuffer.Adds (Pushed input.command) (.withCapacity input.capacity)
      (n.perform input.command input.now (.withCapacity input.capacity)).2.2 := pushes_perform
  rw [show (EventBuffer.withCapacity input.capacity).events = [] from rfl, List.nil_append] at hevents
  rw [hevents]
  generalize input.command = command at hstale hevents hpushed ⊢
  cases command with
  | creditAccount account free =>
      refine ⟨?_, fun event hevent => absurd (hpushed event hevent) (by simp [Pushed, Command.pushes])⟩
      simp only [Engine.perform, Ledger.applyMirrorUpdate]
      cases n.ledger.account account with
      | none => rfl
      | some m => exact Ledger.unmirrored_mirror free
  | reportOracleStatus contract status =>
      refine ⟨?_, fun event hevent => ?_⟩
      · rw [Engine.perform]
        rcases n.reportOracleStatus_cases contract status (.withCapacity input.capacity) with
          ⟨err, heq⟩ | ⟨record, -, -, heq⟩
        · rw [heq]
          rfl
        · rw [heq]
          rfl
      · have hcontract := hpushed event hevent
        cases status with
        | final outcome =>
            obtain rfl : event = .contractResolved contract outcome := of_decide_eq_true hcontract
            rfl
        | _ => cases hcontract
  | settleEscrow escrow contract =>
      refine ⟨?_, fun event hevent => ?_⟩
      · rw [Engine.perform]
        unfold Engine.settleEscrow
        repeat' split
        all_goals rfl
      · have hpayout := hpushed event hevent
        cases event with
        | settleIntent => rfl
        | _ => cases hpayout
  | pollSettlement nonce status =>
      obtain ⟨err, hrefused⟩ : ∃ err, n.pollSettlement nonce status input.now
          (.withCapacity input.capacity) = n.refuse (.withCapacity input.capacity) err :=
        pollSettlement_refused hstale
      rw [Engine.perform, hrefused] at hevents ⊢
      obtain rfl : new = [] := hevents.symm
      exact ⟨rfl, by simp⟩
  | _ => exact hstale.elim

/-- What is stale stays so. -/
theorem Stale.step (h : e.Sane) (hinput : e.Stale input.command) (hstale : e.Stale command) :
    (e.step input).Stale command := by
  cases command with
  | pollSettlement nonce status =>
      intro r y deadline hy hstate
      have hsame := congrArg (fun l : Ledger => l.request r) (h.stale_step hinput).1
      have hsame : (e.step input).ledger.request r = (e.normalisedFor input).ledger.request r := hsame
      obtain ⟨y', hy', hbare⟩ := (h.sameRecords_normalisedFor input).request (hsame.symm.trans hy)
      have hkept : y.state = y'.state := congrArg (fun y => y.state) hbare
      exact hstale r y' deadline hy' (hkept.symm.trans hstate)
  | _ => exact hstale

/-- However much of it is said again. -/
theorem Sane.stale_run (h : e.Sane) (hstale : ∀ input ∈ inputs, e.Stale input.command) :
    (e.run inputs).ledger.unmirrored = (e.sweptFor inputs).ledger.unmirrored ∧
      ∀ event ∈ e.emitted inputs, event.ofContract = true := by
  induction inputs generalizing e with
  | nil => exact ⟨rfl, by simp [emitted, Engine.trace]⟩
  | cons input inputs ih =>
      obtain ⟨hinput, hrest⟩ := List.forall_mem_cons.mp hstale
      obtain ⟨hstep, hemits⟩ := h.stale_step hinput
      obtain ⟨hrun, hemitted⟩ := ih (h.sane_step input) fun later hlater =>
        Stale.step h hinput (hrest later hlater)
      refine ⟨hrun.trans (unmirrored_sweptFor hstep), fun event hevent => ?_⟩
      rcases List.mem_append.mp (show event ∈ e.emits input ++ (e.step input).emitted inputs from hevent)
        with hevent | hevent
      · exact hemits event hevent
      · exact hemitted event hevent

/-- It moves no request. -/
theorem Sane.stale_states (h : e.Sane) (hstale : ∀ input ∈ inputs, e.Stale input.command) (r : ReqIdx) :
    ((e.run inputs).ledger.request r).map Request.state = (e.ledger.request r).map Request.state := by
  have hsame := congrArg (fun l : Ledger => l.request r) (h.stale_run hstale).1
  have hsame : (e.run inputs).ledger.request r = (e.sweptFor inputs).ledger.request r := hsame
  have hrecords := congrArg (Option.map Request.state) ((h.sameRecords_sweptFor inputs).requests r)
  rw [Option.map_map, Option.map_map] at hrecords
  rw [hsame]
  exact hrecords

/-- Once the balances are what they were, the sweeps and the contracts are all of it. -/
theorem Sane.stale_ledger (h : e.Sane) (hstale : ∀ input ∈ inputs, e.Stale input.command)
    (hfree : ∀ a, ((e.run inputs).ledger.account a).map MirroredBalance.free =
      (e.ledger.account a).map MirroredBalance.free) :
    (e.run inputs).ledger =
      { (e.sweptFor inputs).ledger with contracts := (e.run inputs).ledger.contracts } := by
  refine Ledger.eq_of_unmirrored (h.stale_run hstale).1 fun a m m' hm hm' => ?_
  have hsame := hfree a
  rw [hm, Option.map_some, eq_comm, Option.map_eq_some_iff] at hsame
  obtain ⟨m₀, hm₀, heq⟩ := hsame
  rw [← heq, h.free_sweptFor hm₀ hm']

end Engine

end RfqSettlement
