/-
  RfqSettlement.Core.Claimed

  What an account's claims add up to, reserved and committed together.
-/

import RfqSettlement.Core.ChecksPass
import RfqSettlement.Core.Trading

namespace RfqSettlement

/-- What a claim adds to everything `account` has claimed. -/
def Claim.heldBy (account : Nat) (k : Claim) : Nat := if k.account = account then k.amount else 0

theorem Claim.reservedBy_add_committedBy (account : Nat) (k : Claim) :
    k.reservedBy account + k.committedBy account = k.heldBy account := by
  unfold Claim.reservedBy Claim.committedBy Claim.heldBy
  cases k.status <;> simp

theorem Claim.committedOn_le_heldBy (request : ReqIdx) (account : Nat) (k : Claim) :
    k.committedOn request account ≤ k.heldBy account := by
  unfold Claim.committedOn Claim.heldBy
  split
  next h => rw [if_pos h.2]
  next => exact Nat.zero_le _

namespace Ledger

variable {l : Ledger} {account : Nat} {t : Totals} {request : ReqIdx}

theorem Intact.claimed (h : l.Intact) (ht : l.market.totals account = some t) :
    t.claimed = l.market.sum (Claim.heldBy account) := by
  have hreserved := h.balanced.reserved account t ht
  have hcommitted := h.balanced.committed account t ht
  have hsplit := l.sum_book_add (Claim.reservedBy account) (Claim.committedBy account)
  have hsame : l.book.sum (fun k => k.reservedBy account + k.committedBy account) =
      l.book.sum (Claim.heldBy account) :=
    sum_book_congr fun _ k _ => k.reservedBy_add_committedBy account
  show t.reserved + t.committed = l.book.sum _
  omega

/-- An account the ledger does not know has claimed nothing. -/
theorem Intact.heldBy_unknown (h : l.Intact) (ht : l.market.totals account = none) :
    l.market.sum (Claim.heldBy account) = 0 := by
  refine book_sum_eq_zero fun c k hk => ?_
  have hknown := h.balanced.known c k hk
  unfold Claim.heldBy
  split
  next heq =>
    rw [heq, show l.book.totals account = none from ht] at hknown
    cases hknown
  next => rfl

theorem Intact.heldBy_le (h : l.Intact) (account : Nat) :
    l.market.sum (Claim.heldBy account) ≤ u64Max := by
  cases ht : l.market.totals account with
  | none =>
      rw [h.heldBy_unknown ht]
      exact Nat.zero_le _
  | some t =>
      rw [← h.claimed ht]
      exact h.balanced.bounded account t ht

theorem pledged_le_heldBy (l : Ledger) (request : ReqIdx) (account : Nat) :
    l.market.pledged request account ≤ l.market.sum (Claim.heldBy account) :=
  sum_book_le fun k => k.committedOn_le_heldBy request account

end Ledger

end RfqSettlement
