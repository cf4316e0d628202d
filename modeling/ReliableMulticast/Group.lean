import ReliableMulticast.Packet

/-!
# Transmission groups

A sender that protects its data with parity cuts the sequence into groups of `2 ^ k` packets and
sends parity packets for each. A `Group` is a copy of what a receiver holds of one group: enough to
compute the missing members with an erasure code, which is given to this library as a `Decoder`.
-/

namespace ReliableMulticast

structure GroupMember where
  sequence : SeqNum
  /-- The member's data, none if it is missing. -/
  payload : Option ByteArray

/-- One of a group's parity packets; the index says which. -/
structure ParityPacket where
  index : UInt32
  payload : ByteArray

structure Group where
  tsi : Tsi
  first : SeqNum
  members : List GroupMember
  parity : List ParityPacket

namespace Group

def size (g : Group) : Nat := g.members.length

/-- The numbers of the members without data, in order. -/
def missing (g : Group) : List SeqNum :=
  (g.members.filter (·.payload.isNone)).map (·.sequence)

end Group

/-- An erasure code: the payload of a group's missing member, or why it cannot be computed. -/
def Decoder : Type := Group → SeqNum → Except String ByteArray

/-- Inserts a parity packet in front of the first one whose index is not smaller. -/
def ParityPacket.insert (p : ParityPacket) : List ParityPacket → List ParityPacket
  | [] => [p]
  | q :: rest => if p.index.toNat ≤ q.index.toNat then p :: q :: rest else q :: p.insert rest

/-- Parity packets by ascending index; packets of equal index stay in their order. -/
def ParityPacket.sort (ps : List ParityPacket) : List ParityPacket := ps.foldr insert []

end ReliableMulticast
