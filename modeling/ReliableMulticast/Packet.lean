import ReliableMulticast.SeqNum.Basic

/-!
# Packets

A data packet belongs to one sender's session and carries one sequence number. The application's
data units (APDUs) that are too long for a packet are cut into fragments of consecutive packets;
each fragment names the packet its unit starts with, its offset in the unit and the unit's length.
-/

namespace ReliableMulticast

/-- The identity of a session: six bytes for the sender and a number for the place it sends from. -/
structure Tsi where
  gsi : Vector UInt8 6
  sourcePort : UInt16
  deriving DecidableEq, Repr

instance : ToString Tsi :=
  ⟨fun t => ".".intercalate (t.gsi.toList.map toString ++ [toString t.sourcePort])⟩

/-- The place of a packet in an APDU of several packets. -/
structure Fragment where
  apduFirst : SeqNum
  offset : UInt32
  totalLength : UInt32
  deriving DecidableEq, Repr

structure Packet where
  tsi : Tsi
  sequence : SeqNum
  fragment : Option Fragment
  payload : ByteArray

namespace Packet

/-- A packet without fragment option is an APDU of its own. -/
def startsApdu (p : Packet) : Bool :=
  match p.fragment with
  | none => true
  | some f => f.apduFirst = p.sequence

def size (p : Packet) : Nat := p.payload.size

def isEmpty (p : Packet) : Bool := p.size = 0

end Packet

end ReliableMulticast
