import ReliableMulticast.Config
import ReliableMulticast.SlotRing.Basic
import ReliableMulticast.TimerQueues

/-!
# The receive window

A window tracks a stretch of one sender's sequence numbers. Four numbers divide it:

    trail          commitTrail         commitLead            lead
      | delivered or    | complete APDUs    | waiting for data     |
      | reported lost   | and losses        | or for an APDU's end |

The application reads from the second part (`commitTrail` up to `commitLead`); `resolve` moves
`commitLead` over everything that is settled. The window is undefined until the first packet or
status report gives it a place, and gone once it is shut down.
-/

namespace ReliableMulticast

/-- What a window counted since it was made. -/
structure Counters where
  /-- The numbers given up. -/
  losses : Nat
  bytes : Nat
  messages : Nat
  duplicates : Nat
  malformed : Nat
  /-- The slots filled with data computed from parity. -/
  fecRepairs : Nat
  /-- The fewest and the most requests that a repaired slot took. -/
  minNaks : Option Nat
  maxNaks : Option Nat
  /-- The shortest and the longest time, in microseconds, from missing a packet to its repair. -/
  minFill : Option Nat
  maxFill : Option Nat
  deriving DecidableEq, Repr

namespace Counters

def zero : Counters := ⟨0, 0, 0, 0, 0, 0, none, none, none, none⟩

def addLosses (c : Counters) (n : Nat) : Counters := { c with losses := c.losses + n }

def addDuplicate (c : Counters) : Counters := { c with duplicates := c.duplicates + 1 }

def addMalformed (c : Counters) : Counters := { c with malformed := c.malformed + 1 }

def addFecRepair (c : Counters) : Counters := { c with fecRepairs := c.fecRepairs + 1 }

def addMessage (c : Counters) (size : Nat) : Counters :=
  { c with bytes := c.bytes + size, messages := c.messages + 1 }

/-- Counts a repair that took `fill` microseconds and `naks` requests. -/
def addRepair (c : Counters) (fill naks : Nat) : Counters :=
  { c with
    minNaks := some ((c.minNaks.map (min naks)).getD naks)
    maxNaks := some ((c.maxNaks.map (max naks)).getD naks)
    minFill := some ((c.minFill.map (min fill)).getD fill)
    maxFill := some ((c.maxFill.map (max fill)).getD fill) }

end Counters

/-- The largest count of losses that a reader is told of at once. -/
def maxReported : Nat := 4294967295

structure Window where
  tsi : Tsi
  config : ValidConfig
  /-- The packets of a transmission group. -/
  groupSize : Nat
  isDefined : Bool
  isGone : Bool
  commitTrail : SeqNum
  commitLead : SeqNum
  /-- The oldest number the sender can still repair. -/
  senderTrail : SeqNum
  /-- The losses outside the readable part, which the next read reports. -/
  unreportedLosses : Nat
  counters : Counters
  /-- The first slot that the ring refused to take; none as long as the window keeps its own
  rules. -/
  fault : Option SlotRing.Refusal
  queues : TimerQueues
  slots : SlotRing

namespace Window

/-- A new window for a session. -/
def create (tsi : Tsi) (config : ValidConfig) : Window where
  tsi := tsi
  config := config
  groupSize := config.1.groupSize.toNat
  isDefined := false
  isGone := false
  commitTrail := 0
  commitLead := 0
  senderTrail := 0
  unreportedLosses := 0
  counters := .zero
  fault := none
  queues := .empty
  slots := SlotRing.emptyAt config.1.capacity.toNat 0
    (Nat.pos_of_ne_zero fun h => config.2.capacity_pos (UInt32.toNat_inj.1 h))
    (Nat.le_trans config.2.capacity_le (by decide))

/-! ### Places -/

/-- The oldest number tracked. -/
def trail (w : Window) : SeqNum := w.slots.trail

/-- The newest number tracked. -/
def lead (w : Window) : SeqNum := w.slots.lead

/-- The number after the lead. -/
def next (w : Window) : SeqNum := w.slots.next

def capacity (w : Window) : Nat := w.slots.capacity

/-- Gives the window its place: its first number will be `trail`. -/
def define (w : Window) (trail : SeqNum) : Window :=
  { w with
    slots := w.slots.reset trail
    queues := .empty
    commitTrail := trail
    commitLead := trail
    senderTrail := trail
    isDefined := true }

/-- Gives the window its place unless it has one. -/
def ensureDefined (w : Window) (trail : SeqNum) : Window :=
  if w.isDefined then w else w.define trail

/-! ### Transmission groups -/

/-- The place of a number within its transmission group. -/
def groupIndex (w : Window) (s : SeqNum) : Nat := s.raw.toNat % w.groupSize

/-- The first number of the transmission group of `s`. -/
def groupFirst (w : Window) (s : SeqNum) : SeqNum := s - w.groupIndex s

/-- The numbers of the transmission group of `s`. -/
def groupNumbers (w : Window) (s : SeqNum) : List SeqNum := (w.groupFirst s).run w.groupSize

/-! ### Slots -/

/-- Appends a slot at the lead. -/
def append (w : Window) (slot : Slot) : Window :=
  { w with fault := w.fault <|> w.slots.refusal? slot, slots := w.slots.append slot }

/-- Changes the slot of a number. -/
def modify (w : Window) (s : SeqNum) (change : Slot → Slot) : Window :=
  { w with slots := w.slots.modify s change }

def slotIs (w : Window) (s : SeqNum) (p : Slot → Bool) : Bool := (w.slots.get? s).any p

/-! ### Losses -/

/-- Reports more losses to the next read. -/
def addUnreported (w : Window) (n : Nat) : Window :=
  { w with unreportedLosses := min (w.unreportedLosses + n) maxReported }

/-- Gives a slot up, unless it was given up before. -/
def giveUpSlot (w : Window) (s : SeqNum) : Window :=
  match w.slots.get? s with
  | none => w
  | some slot =>
    if slot.state = .lost then w
    else
      { w with
        slots := w.slots.modify s Slot.giveUp
        queues := w.queues.unqueue slot
        counters := w.counters.addLosses 1 }

/-! ### Gauges -/

/-- What the slots of a window are in at a moment. -/
structure Gauges where
  size : Nat
  lost : Nat
  /-- The fragments of an APDU that are held and not delivered. -/
  fragments : Nat
  /-- The slots that keep a parity packet. -/
  parity : Nat
  retained : Nat
  committed : Nat
  deriving DecidableEq, Repr

def gauges (w : Window) : Gauges :=
  let slots := w.slots.cellList
  { size := w.slots.size
    lost := slots.countP (·.state = .lost)
    fragments := slots.countP fun s => s.state = .haveData ∧ s.fragment.isSome
    parity := slots.countP (·.parity.isSome)
    retained := slots.countP (·.state = .retained)
    committed := slots.countP (·.state = .committed) }

end Window

end ReliableMulticast
