import ReliableMulticast.Group
import ReliableMulticast.Time

/-!
# Slots

A receive window keeps one slot for each number it tracks, whether or not its packet has arrived. A
slot whose packet is still wanted runs one of three timers, and the timer says which of the slot's
three expiry times counts.
-/

namespace ReliableMulticast

/-- What a window knows of one packet. -/
inductive SlotState where
  /-- Missing; the first request is held back. -/
  | backOff
  /-- Requested; the request is not confirmed. -/
  | waitNcf
  /-- Requested and confirmed. -/
  | waitData
  /-- Held and not delivered. -/
  | haveData
  /-- Missing, and a parity packet of its group is kept here. -/
  | haveParity
  /-- Delivered. -/
  | committed
  /-- Delivered and kept as input for repairing its group. -/
  | retained
  /-- Given up. -/
  | lost
  deriving DecidableEq, Repr

namespace SlotState

/-- The packet is missing and still wanted. -/
def repairPending : SlotState → Bool
  | .backOff | .waitNcf | .waitData | .haveParity => true
  | _ => false

def hasData : SlotState → Bool
  | .haveData | .committed | .retained => true
  | _ => false

def delivered : SlotState → Bool
  | .committed | .retained => true
  | _ => false

def text : SlotState → String
  | .backOff => "PGM_PKT_BACK_OFF_STATE"
  | .waitNcf => "PGM_PKT_WAIT_NCF_STATE"
  | .waitData => "PGM_PKT_WAIT_DATA_STATE"
  | .haveData => "PGM_PKT_HAVE_DATA_STATE"
  | .haveParity => "PGM_PKT_HAVE_PARITY_STATE"
  | .committed => "PGM_PKT_COMMIT_DATA_STATE"
  | .retained => "PGM_PKT_PARITY_DATA_STATE"
  | .lost => "PGM_PKT_LOST_DATA_STATE"

instance : ToString SlotState := ⟨text⟩

end SlotState

/-- The timers of a missing packet: before the request, for its confirmation, for the data. -/
inductive Timer where
  | backOff
  | waitNcf
  | waitData
  deriving DecidableEq, Repr

structure Slot where
  sequence : SeqNum
  state : SlotState
  /-- When the slot was made. -/
  created : Timestamp
  backOffExpiry : Timestamp
  ncfExpiry : Timestamp
  dataExpiry : Timestamp
  /-- The requests sent for this packet. -/
  naks : Nat
  /-- How often the wait for a confirmation ended without one. -/
  ncfRetries : Nat
  /-- The requests sent since the repair was confirmed. -/
  dataRetries : Nat
  payload : Option ByteArray
  parity : Option ParityPacket
  fragment : Option Fragment
  /-- The timer that runs, if any. -/
  timer : Option Timer

namespace Slot

/-- The slot of a packet that did not arrive, found missing at `now`. -/
def placeholder (s : SeqNum) (now expiry : Timestamp) : Slot where
  sequence := s
  state := .backOff
  created := now
  backOffExpiry := expiry
  ncfExpiry := 0
  dataExpiry := 0
  naks := 0
  ncfRetries := 0
  dataRetries := 0
  payload := none
  parity := none
  fragment := none
  timer := some .backOff

/-- The slot of a packet that arrived at `now` ahead of all others. -/
def ofPacket (p : Packet) (now : Timestamp) : Slot where
  sequence := p.sequence
  state := .haveData
  created := now
  backOffExpiry := 0
  ncfExpiry := 0
  dataExpiry := 0
  naks := 0
  ncfRetries := 0
  dataRetries := 0
  payload := some p.payload
  parity := none
  fragment := p.fragment
  timer := none

/-- The expiry time that belongs to a timer. -/
def expiryOf (s : Slot) : Timer → Timestamp
  | .backOff => s.backOffExpiry
  | .waitNcf => s.ncfExpiry
  | .waitData => s.dataExpiry

/-- When the running timer ends. -/
def expiry (s : Slot) : Option Timestamp := s.timer.map s.expiryOf

def payloadSize (s : Slot) : Nat := (s.payload.map ByteArray.size).getD 0

/-- The slot given up: no data, no parity, no timer. -/
def giveUp (s : Slot) : Slot :=
  { s with state := .lost, payload := none, parity := none, timer := none }

/-- The slot filled with its packet. A parity packet kept in it is used up if the data was computed
from parity. -/
def fill (s : Slot) (payload : ByteArray) (fragment : Option Fragment) (fromParity : Bool) : Slot :=
  { s with
    state := .haveData
    payload := some payload
    fragment := fragment
    parity := if fromParity then none else s.parity
    timer := none }

/-- The slot with a parity packet of its group; its own packet is still missing. -/
def keepParity (s : Slot) (p : ParityPacket) : Slot :=
  { s with parity := some p, state := .haveParity }

/-- The slot delivered. -/
def commit (s : Slot) : Slot := { s with state := .committed }

/-- A delivered slot kept for its group. -/
def retain (s : Slot) : Slot := if s.state = .committed then { s with state := .retained } else s

/-- A delivered slot without its data. -/
def dropPayload (s : Slot) : Slot := if s.state = .committed then { s with payload := none } else s

end Slot

end ReliableMulticast
