/-
  RfqSettlement.Chain.Operations

  Runs of custody: any of its operations, in any order, any number of times.
-/

import RfqSettlement.Chain.Custody

namespace RfqSettlement

/-- One operation on custody.  `settle` includes a bundle that was never submitted. -/
inductive CustodyOp where
  | ledger (op : CustodyLedger.LedgerOp)
  | submit (bundle : Bundle)
  | includeNext (hook : List CustodyLedger.LedgerOp) (now : Nat)
  | includeAll (hook : List CustodyLedger.LedgerOp) (clock : Nat → Nat)
  | dropNextSubmission
  | precheck (bundle : Bundle) (now : Nat)
  | settle (hook : List CustodyLedger.LedgerOp) (bundle : Bundle) (now : Nat)

/-- Anything but including a bundle that was never submitted. -/
def CustodyOp.submits : CustodyOp → Bool
  | .settle .. => false
  | _ => true

/-- Whether a bundle comes with the operation. -/
def CustodyOp.carries : CustodyOp → Bool
  | .submit _ | .settle .. => true
  | _ => false

namespace CustodyLedger

/-- What an operation makes of the ledger. -/
def perform (l : CustodyLedger) : CustodyOp → CustodyLedger
  | .ledger op => op.apply l
  | .submit bundle => (l.submit bundle).2
  | .includeNext hook now => (l.includeNext hook now).2
  | .includeAll hook clock => (l.includeAll hook clock).2
  | .dropNextSubmission => l.dropNextSubmission.2
  | .precheck _ _ => l
  | .settle hook bundle now => (l.settle hook bundle now).2

def run (l : CustodyLedger) (ops : List CustodyOp) : CustodyLedger := ops.foldl perform l

@[simp] theorem run_nil (l : CustodyLedger) : l.run [] = l := rfl

@[simp] theorem run_cons (l : CustodyLedger) (op : CustodyOp) (ops : List CustodyOp) :
    l.run (op :: ops) = (l.perform op).run ops := rfl

theorem run_append (l : CustodyLedger) (ops ops' : List CustodyOp) :
    l.run (ops ++ ops') = (l.run ops).run ops' :=
  List.foldl_append

end CustodyLedger

end RfqSettlement
