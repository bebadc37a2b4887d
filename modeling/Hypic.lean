import Hypic.Locks
import Hypic.EventIndex
import Hypic.RadixConserve
import Hypic.EventRouting
import Hypic.PlanCache
import Hypic.SegLaReads
import Hypic.ConvSlots
import Hypic.PrefillPlan
import Hypic.PhaseCBatch
import Hypic.Completion
import Hypic.Assign
import Hypic.Retire
import Hypic.Inflight
import Hypic.Breaker
import Hypic.Buckets
import Hypic.HashRing
import Hypic.CircuitBreaker
import Hypic.Billing
