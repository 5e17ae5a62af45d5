import HotStuff.Cluster
import HotStuff.Main
import HotStuff.Proofs.Quorums
import HotStuff.Proofs.Counting
import HotStuff.Proofs.Agreement
import HotStuff.Proofs.Settling
import HotStuff.Proofs.Leading
import HotStuff.Proofs.Sealing
import HotStuff.Proofs.Lock
import HotStuff.Proofs.Standing
import HotStuff.Proofs.Admission
import HotStuff.Proofs.Refusal
import HotStuff.Proofs.Holding
import HotStuff.Proofs.Slots
import HotStuff.Proofs.Progress
import HotStuff.Proofs.Calls
import HotStuff.Proofs.Repetition
import HotStuff.Proofs.Lifetimes
import HotStuff.Proofs.CatchingUp
import HotStuff.Proofs.Wire
import HotStuff.Proofs.Exchange
import HotStuff.Proofs.Advancing
import HotStuff.Proofs.Capacity
import HotStuff.Proofs.Announcing
import HotStuff.Proofs.Jumping
import HotStuff.Proofs.Limits
import HotStuff.Proofs.Draining
import HotStuff.Proofs.Membership
import HotStuff.Proofs.Durability
import HotStuff.Proofs.Filing
import HotStuff.Proofs.Reporting
import HotStuff.Proofs.Handover
import HotStuff.Proofs.Ticking
import HotStuff.Proofs.Thresholds
import HotStuff.Proofs.Delivery
import HotStuff.Proofs.Keys
import HotStuff.Proofs.Startup
import HotStuff.Proofs.Expiry
