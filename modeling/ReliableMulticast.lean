import ReliableMulticast.SlotRing.Lemmas
import ReliableMulticast.Timeline
import ReliableMulticast.Proofs.Stretch
import ReliableMulticast.Proofs.HalfTurn
import ReliableMulticast.Proofs.Apdu
import ReliableMulticast.Proofs.Frame
import ReliableMulticast.Proofs.Sound
import ReliableMulticast.Proofs.Losing
import ReliableMulticast.Proofs.Move
import ReliableMulticast.Proofs.Preservation
import ReliableMulticast.Proofs.Settling
import ReliableMulticast.Proofs.Advancing
import ReliableMulticast.Proofs.Intake
import ReliableMulticast.Proofs.Reading
import ReliableMulticast.Proofs.Ledger
import ReliableMulticast.Proofs.History
import ReliableMulticast.Proofs.Pointers
import ReliableMulticast.Proofs.Slotwise
import ReliableMulticast.Proofs.Reassembly
import ReliableMulticast.Proofs.Repairable
import ReliableMulticast.Proofs.Retention
import ReliableMulticast.Proofs.Accounts
import ReliableMulticast.Proofs.Refusal
import ReliableMulticast.Proofs.Stream
import ReliableMulticast.Proofs.Rebuilding
import ReliableMulticast.Proofs.Queueing
import ReliableMulticast.Proofs.Timekeeping
import ReliableMulticast.Proofs.Front
import ReliableMulticast.Proofs.Ready
import ReliableMulticast.Proofs.Upkeep
import ReliableMulticast.Proofs.Lossless
import ReliableMulticast.Proofs.Reception
import ReliableMulticast.Proofs.Completeness
import ReliableMulticast.Proofs.Shifting
import ReliableMulticast.Proofs.Extents
import ReliableMulticast.Proofs.Containment
import ReliableMulticast.Proofs.Presence
import ReliableMulticast.Proofs.Stillness
import ReliableMulticast.Proofs.Lasting
import ReliableMulticast.Proofs.Firing
import ReliableMulticast.Proofs.Budget
import ReliableMulticast.Proofs.Punctual
import ReliableMulticast.Proofs.Enclosure
import ReliableMulticast.Proofs.Deadlines
import ReliableMulticast.Proofs.Standing
import ReliableMulticast.Proofs.SenderTrail
import ReliableMulticast.Proofs.Faultless
import ReliableMulticast.Proofs.Wanted
import ReliableMulticast.Proofs.Rearmed
import ReliableMulticast.Proofs.Walking
import ReliableMulticast.Proofs.Portions
import ReliableMulticast.Proofs.Noticing
import ReliableMulticast.Proofs.Lifecycle
import ReliableMulticast.Proofs.Mirror
import ReliableMulticast.Proofs.Lockstep
import ReliableMulticast.Proofs.Reclaiming
import ReliableMulticast.Proofs.Pending
import ReliableMulticast.Proofs.Registry
import ReliableMulticast.Proofs.Isolation
import ReliableMulticast.Proofs.Service
import ReliableMulticast.Proofs.Visiting
import ReliableMulticast.Proofs.Tallying
import ReliableMulticast.Proofs.Drained
import ReliableMulticast.Proofs.Batches
import ReliableMulticast.Proofs.Overflow
import ReliableMulticast.Proofs.Snapshot
import ReliableMulticast.Proofs.Belated
import ReliableMulticast.Proofs.Coalescing
import ReliableMulticast.Proofs.BoundedQueue
import ReliableMulticast.Proofs.Terminating
import ReliableMulticast.Proofs.Holding
