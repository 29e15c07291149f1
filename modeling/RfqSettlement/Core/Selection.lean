/-
  RfqSettlement.Core.Selection

  Walking a leg's quote chain and choosing its fill (`core/src/selection.rs`).

  The source repeats the walk in each of its three readers; here it is one list of
  the quotes visited, in chain order, and each reader works through that list.
  The walk is bounded by the capacity of the quote slab: a longer chain would
  revisit a slot, and the source would not return.
-/

import RfqSettlement.Core.Command

namespace RfqSettlement

namespace Ledger

/-- The quotes reached from `cursor`, in chain order. -/
def walkFrom (l : Ledger) : Nat → Link → List (QuoteIdx × Quote)
  | _, none => []
  | 0, some _ => []
  | fuel + 1, some index =>
    match l.quoteHandleAt index with
    | none => []
    | some handle =>
      match l.quote handle with
      | none => []
      | some quote => (handle, quote) :: l.walkFrom fuel quote.nextOnLeg

/-- Every quote on `leg`, in chain order. -/
def walkLeg (l : Ledger) (leg : Leg) : List (QuoteIdx × Quote) :=
  l.walkFrom l.quotes.capacity leg.quotesHead

/-- The quote this maker already has standing on `leg`, if any. -/
def standingQuoteOf (l : Ledger) (leg : Leg) (maker : Nat) : Option QuoteIdx :=
  ((l.walkLeg leg).find? fun x => decide (x.2.maker = maker ∧ x.2.state = .active)).map Prod.fst

end Ledger

-- ============================================================================
-- The best quote
-- ============================================================================

/-- What the scan of a leg has seen so far. -/
structure Scan where
  best : Option Selection := none
  bestArrival : Nat := u64Max
  sawQuote : Bool := false
  sawLive : Bool := false
  sawBigEnough : Bool := false
deriving DecidableEq, Repr

/-- Whether a quote may fill the leg at all. -/
def Quote.isEligible (q : Quote) (leg : Leg) (now : Nat) : Bool :=
  q.isLiveAt now && decide (leg.size ≤ q.size) && decide (q.price ≤ leg.limit)

/-- Whether a candidate displaces the best so far: a lower price, or the same
    price and an earlier arrival. -/
def Scan.better (s : Scan) (q : Quote) : Bool :=
  match s.best with
  | none => true
  | some current =>
    decide (q.price < current.price) ||
      (decide (q.price = current.price) && decide (q.arrival < s.bestArrival))

/-- One quote of the chain. -/
def Scan.visit (leg : Leg) (now : Nat) (s : Scan) (x : QuoteIdx × Quote) : Scan :=
  let s := { s with sawQuote := true }
  if !x.2.isLiveAt now then s
  else
    let s := { s with sawLive := true }
    if x.2.size < leg.size then s
    else
      let s := { s with sawBigEnough := true }
      if leg.limit < x.2.price then s
      else if s.better x.2 then
        { s with best := some ⟨x.1, x.2.price⟩, bestArrival := x.2.arrival }
      else s

/-- Why the scan found nothing. -/
def Scan.reason (s : Scan) : NoQuoteReason :=
  if !s.sawQuote then .noQuotes
  else if !s.sawLive then .allExpired
  else if s.sawBigEnough then .outsideLimit
  else .sizeTooSmall

/-- The best eligible live quote on `leg`, or why there is none. -/
def Ledger.bestOnLeg (l : Ledger) (leg : Leg) (now : Nat) : Except NoQuoteReason Selection :=
  let s := (l.walkLeg leg).foldl (Scan.visit leg now) {}
  match s.best with
  | some best => .ok best
  | none => .error s.reason

end RfqSettlement
