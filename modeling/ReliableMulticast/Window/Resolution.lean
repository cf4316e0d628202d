import ReliableMulticast.Window.Loss

/-!
# Resolving the front of a window

`resolve` moves `commitLead` over what is settled: complete APDUs and slots given up. It stops at
the first packet that is missing or whose APDU misses one. Fragments that can never become part of
a complete APDU are given up on the way: those whose APDU does not start in the window, and those
of an APDU with a lost fragment or with fragments that contradict each other.
-/

namespace ReliableMulticast

/-- What is known of an APDU from its slots. -/
inductive ApduScan where
  /-- All its fragments are held, this many. -/
  | complete (count : Nat)
  | incomplete
  | lost
  | malformed
  deriving DecidableEq, Repr

/-- The scan that counts one more fragment in front. -/
def ApduScan.succ : ApduScan → ApduScan
  | .complete n => .complete (n + 1)
  | scan => scan

/-- Reads the fragments of the APDU that starts at `first` and has `total` bytes, of which
`received` bytes came before, off the slots that follow. -/
def scanFragments (first : SeqNum) (total received : Nat) : List Slot → ApduScan
  | [] => .incomplete
  | slot :: rest =>
    if slot.state = .lost then .lost
    else if slot.state.repairPending then .incomplete
    else
      match slot.fragment with
      | none => .malformed
      | some f =>
        if f.apduFirst = first ∧ f.totalLength.toNat = total ∧ f.offset.toNat = received then
          let received := received + slot.payloadSize
          if received = total then .complete 1
          else if total < received then .malformed
          else (scanFragments first total received rest).succ
        else .malformed

/-- The slots from a number of the ring to its lead. -/
def SlotRing.slotsFrom (r : SlotRing) (s : SeqNum) : List Slot :=
  if r.Contains s then (s.run (s.gap r.next)).filterMap r.get? else []

namespace Window

/-- What is known of the APDU of `total` bytes that starts at `first`. -/
def scanApdu (w : Window) (first : SeqNum) (total : Nat) : ApduScan :=
  scanFragments first total 0 (w.slots.slotsFrom first)

/-- Moves the end of the readable part forward. -/
def passFront (w : Window) (count : Nat) : Window := { w with commitLead := w.commitLead + count }

/-- One step at the front: passes what is settled there or gives up what is useless; none if the
front has to wait. -/
def resolveStep? (w : Window) : Option Window :=
  match w.slots.get? w.commitLead with
  | none => none
  | some slot =>
    if slot.state.repairPending then none
    else if slot.state = .haveData then
      match slot.fragment with
      | none => some (w.passFront 1)
      | some f =>
        if f.apduFirst ≠ w.commitLead then some (w.giveUpSlot w.commitLead)
        else
          match w.scanApdu w.commitLead f.totalLength.toNat with
          | .complete count => some (w.passFront count)
          | .incomplete => none
          | .lost => some (w.loseApdu w.commitLead)
          | .malformed =>
            some ({ w with counters := w.counters.addMalformed }.loseApdu w.commitLead)
    else some (w.passFront 1)

/-- Takes at most `steps` steps at the front. -/
def resolveSteps : Nat → Window → Window
  | 0, w => w
  | steps + 1, w =>
    match w.resolveStep? with
    | none => w
    | some w => resolveSteps steps w

/-- Moves `commitLead` over all that is settled. Each slot takes two steps at most: one that gives
it up and one that passes it. -/
def resolve (w : Window) : Window := resolveSteps (2 * w.commitLead.gap w.next) w

end Window

end ReliableMulticast
