import ReliableMulticast.Window.Data

/-!
# Parity packets

The upper part of a parity packet's number names its transmission group, the lower part its index
among the group's parity packets. The packet is kept in the group's first slot that misses its data
and keeps no parity yet; that slot goes on waiting with the timer it has.
-/

namespace ReliableMulticast.Window

/-- The last number of the transmission group of `s`. -/
def groupLast (w : Window) (s : SeqNum) : SeqNum := w.groupFirst s + (w.groupSize - 1)

/-- Stores a parity packet in its group, whose numbers are all in the window. -/
def storeParity (w : Window) (p : Packet) (outcome : Outcome) : Window × Receipt :=
  let slots := (w.groupNumbers p.sequence).filterMap w.slots.get?
  if slots.any (·.state = .lost) then (w, .of .apduLost)
  else
    match slots.find? fun slot => slot.state.repairPending && slot.parity.isNone with
    | none => ({ w with counters := w.counters.addDuplicate }, .of .duplicate)
    | some slot =>
      let index := UInt32.ofNat (w.groupIndex p.sequence)
      let w := (w.modify slot.sequence (·.keepParity ⟨index, p.payload⟩)).resolve
      (w, ⟨outcome, false, true, w.repairableGroup? p.sequence⟩)

/-- Takes in a parity packet. -/
def acceptParity (w : Window) (p : Packet) (now : Timestamp) : Window × Receipt :=
  if w.groupSize ≤ 1 ∨ w.isOversized p then w.refuse
  else
    let w := w.ensureDefined (w.groupFirst p.sequence)
    if (w.groupFirst p.sequence).Before w.trail then (w, .of .notInWindow)
    else if (w.groupLast p.sequence).After w.lead then
      (w.advanceLead (w.groupLast p.sequence) now).storeParity p .advancedWindow
    else w.storeParity p .ok

end ReliableMulticast.Window
