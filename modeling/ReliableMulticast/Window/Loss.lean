import ReliableMulticast.Window.Basic

/-!
# Losing an APDU

An APDU that misses one of its packets for good is useless as a whole, so with a slot all slots of
its APDU are given up: the fragments that are held, and the missing packets between the first and
the last of them. Slots that were delivered or reported before are left alone.
-/

namespace ReliableMulticast

/-- The slot holds, or held, a fragment of the APDU that starts at `first`. -/
def Slot.isFragmentOf (slot : Slot) (first : SeqNum) : Bool :=
  slot.fragment.any (·.apduFirst = first)

namespace Window

/-- The last number after `s` known to belong to the APDU that starts at `first`, or `s`. Data of
another APDU after `s` ends the search. -/
def lastFragment (w : Window) (first s start : SeqNum) : SeqNum :=
  let continues (x : SeqNum) : Bool :=
    w.slotIs x fun slot => slot.isFragmentOf first || !(slot.state.hasData && x.After s)
  let belongs (x : SeqNum) : Bool := x.After s && w.slotIs x (·.isFragmentOf first)
  (((start.upTo w.next).takeWhile continues).filter belongs).getLastD s

/-- Gives up a slot of the APDU that starts at `first`: one of its fragments or a missing packet. -/
def giveUpMember (first : SeqNum) (w : Window) (s : SeqNum) : Window :=
  if w.slotIs s fun slot => slot.isFragmentOf first || slot.state.repairPending then w.giveUpSlot s
  else w

/-- Gives up a slot together with the rest of its APDU. -/
def loseApdu (w : Window) (s : SeqNum) : Window :=
  let lost := w.giveUpSlot s
  match (w.slots.get? s).bind Slot.fragment with
  | none => lost
  | some f =>
    let start := if f.apduFirst.Before w.commitTrail then w.commitTrail else f.apduFirst
    let last := lost.lastFragment f.apduFirst s start
    (start.upTo last.next).foldl (giveUpMember f.apduFirst) lost

end Window

end ReliableMulticast
