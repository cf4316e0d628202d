import ReliableMulticast.Receipt
import ReliableMulticast.Window.Advance
import ReliableMulticast.Window.Repairable
import ReliableMulticast.Window.Resolution

/-!
# Data packets

A data packet is stored ahead of the lead or in the slot that waits for it. Packets that contradict
themselves or the start of their APDU are refused before anything else is looked at; packets behind
the trail, packets given up and packets that are here already change nothing but a count.
-/

namespace ReliableMulticast

/-- Where the data of a repair comes from. -/
inductive RepairSource where
  /-- The sender sent it again. -/
  | retransmission
  /-- It was computed from parity. -/
  | parity
  deriving DecidableEq, Repr

namespace Window

/-- The window holds the first fragment of the APDU, and it tells another length. -/
def contradictsHead (w : Window) (f : Fragment) : Bool :=
  w.slotIs f.apduFirst fun head =>
    head.state.hasData && head.fragment.map (·.totalLength) ≠ some f.totalLength

/-- The fragment option of a packet cannot be true. -/
def isMalformedFragment (w : Window) (p : Packet) (f : Fragment) : Bool :=
  f.apduFirst.After p.sequence
    || w.capacity ≤ f.apduFirst.gap p.sequence
    || f.totalLength.toNat < f.offset.toNat + p.size
    || decide (f.apduFirst = p.sequence) != decide (f.offset = 0)
    || (f.apduFirst ≠ p.sequence && w.contradictsHead f)

/-- The payload is longer than a packet may be. -/
def isOversized (w : Window) (p : Packet) : Bool := w.config.1.maxTpdu.toNat < p.size

def isMalformed (w : Window) (p : Packet) : Bool :=
  w.isOversized p || p.fragment.any (w.isMalformedFragment p)

/-- Counts a malformed packet and refuses it. -/
def refuse (w : Window) : Window × Receipt :=
  ({ w with counters := w.counters.addMalformed }, .of .malformedApdu)

/-- Fills the slot that waits for a packet. A packet that was neither asked for nor sent as a repair
is merely late, and not counted as one. -/
def fillSlot (w : Window) (slot : Slot) (p : Packet) (source : Option RepairSource)
    (now : Timestamp) : Window :=
  let fromParity := source = some .parity
  let counters :=
    if source.isSome ∨ 0 < slot.naks then w.counters.addRepair (now.since slot.created) slot.naks
    else w.counters
  { w with
    slots := w.slots.modify p.sequence fun slot => slot.fill p.payload p.fragment fromParity
    queues := w.queues.unqueue slot
    counters := if fromParity then counters.addFecRepair else counters }

/-- Settles the front after a packet was stored and looks whether it made its group repairable. -/
def stored (w : Window) (p : Packet) (outcome : Outcome) : Window × Receipt :=
  let w := w.resolve
  (w, ⟨outcome, p.startsApdu, true, w.repairableGroup? p.sequence⟩)

/-- Takes in a data packet that is ahead of the lead. -/
def extend (w : Window) (p : Packet) (now : Timestamp) : Window :=
  ((w.makeRoom p.sequence).addPlaceholders p.sequence now).append (Slot.ofPacket p now)

/-- Takes in a data packet; a repair has a `source`. -/
def acceptData (w : Window) (p : Packet) (source : Option RepairSource) (now : Timestamp) :
    Window × Receipt :=
  if w.isMalformed p then w.refuse
  else
    let w := w.ensureDefined p.sequence
    if p.sequence.Before w.trail then (w, .of .notInWindow)
    else if p.sequence.After w.lead then (w.extend p now).stored p .advancedWindow
    else
      match w.slots.get? p.sequence with
      | none => (w, .of .unknown)
      | some slot =>
        if slot.state = .lost then (w, .of .apduLost)
        else if slot.state.hasData then
          ({ w with counters := w.counters.addDuplicate }, .of .duplicate)
        else (w.fillSlot slot p source now).stored p .filledPlaceholder

end Window

end ReliableMulticast
