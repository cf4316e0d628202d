import ReliableMulticast.Window.Basic

/-!
# Repairable groups

A transmission group can be repaired if all its members are in the window, none was given up, the
data that arrived is still held, and there are at least as many parity packets as missing members.
-/

namespace ReliableMulticast

/-- The slot as a member of its group. -/
def Slot.member (slot : Slot) : GroupMember :=
  ⟨slot.sequence, if slot.state.hasData then slot.payload else none⟩

/-- The slot does not stand in the way of repairing its group: it was not given up, and if its
packet arrived the data is there. -/
def Slot.isUsable (slot : Slot) : Bool :=
  slot.state ≠ .lost && !(slot.state.hasData && slot.payload.isNone)

namespace Window

/-- The transmission group of `s`, if it has missing members and enough parity for all of them. -/
def repairableGroup? (w : Window) (s : SeqNum) : Option Group :=
  if w.groupSize ≤ 1 then none
  else
    match (w.groupNumbers s).mapM w.slots.get? with
    | none => none
    | some slots =>
      let group : Group :=
        { tsi := w.tsi
          first := w.groupFirst s
          members := slots.map Slot.member
          parity := ParityPacket.sort (slots.filterMap Slot.parity) }
      let missing := group.missing.length
      if slots.all Slot.isUsable ∧ 0 < missing ∧ missing ≤ group.parity.length then some group
      else none

end Window

end ReliableMulticast
