import RfqSettlement.Lib.Threaded
import RfqSettlement.Core.SlabSafety
import RfqSettlement.Core.Balance
import RfqSettlement.Core.Links
import RfqSettlement.Core.Intact
import RfqSettlement.Core.ClaimOps
import RfqSettlement.Core.ClaimWalks
import RfqSettlement.Core.ChecksPass
import RfqSettlement.Core.LedgerIntegrity
import RfqSettlement.Core.Normalisation
import RfqSettlement.Core.Engine
import RfqSettlement.Core.Telling
import RfqSettlement.Core.MarketMoves
import RfqSettlement.Core.ChecksHold
import RfqSettlement.Core.Standing
import RfqSettlement.Core.BestExecution
import RfqSettlement.Core.Defences
import RfqSettlement.Core.Discharging
import RfqSettlement.Core.Coverage
import RfqSettlement.Core.Asserting
import RfqSettlement.Core.Outcomes
import RfqSettlement.Core.Capacity
import RfqSettlement.Core.Departures
import RfqSettlement.Core.Placement
import RfqSettlement.Core.Turns
import RfqSettlement.Core.Notices
import RfqSettlement.Core.Admission
import RfqSettlement.Core.Publication
import RfqSettlement.Core.LegChains
import RfqSettlement.Core.Metering
import RfqSettlement.Core.Chronicle
import RfqSettlement.Core.Limits
import RfqSettlement.Core.LegLinks
import RfqSettlement.Core.Presentation
import RfqSettlement.Core.Sweeping
import RfqSettlement.Runtime.Venue
import RfqSettlement.Runtime.Publishing
import RfqSettlement.Runtime.Settlement
import RfqSettlement.Runtime.Backing
import RfqSettlement.Chain.Delivery
import RfqSettlement.Chain.Conservation
import RfqSettlement.Chain.ExactlyOnce
import RfqSettlement.Chain.Announcing
import RfqSettlement.Chain.Challenge
import RfqSettlement.Chain.Dryrun
import RfqSettlement.Chain.Unwinding
import RfqSettlement.Runtime.Headroom
import RfqSettlement.Runtime.Stranding
import RfqSettlement.Runtime.Reporting
import RfqSettlement.Runtime.Gateway
import RfqSettlement.Runtime.Forming
import RfqSettlement.Runtime.Covering
import RfqSettlement.Runtime.Retrying
import RfqSettlement.Runtime.Replaying
