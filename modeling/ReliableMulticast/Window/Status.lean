import ReliableMulticast.Receipt
import ReliableMulticast.Slot.Timer
import ReliableMulticast.Window.Advance
import ReliableMulticast.Window.Resolution

/-!
# News from the sender

Confirmations of repair requests (NCFs) and status reports. A confirmation restarts the wait for the
data. A status report tells the range the sender can still repair: the window's lead follows the
sender's, and what is missing behind the sender's trail is given up.
-/

namespace ReliableMulticast.Window

/-! ### Confirmations -/

/-- Restarts the wait of a slot whose request is confirmed. -/
def restart (w : Window) (slot : Slot) (timer : Timer) (now : Timestamp) : Window :=
  { w with
    slots := w.slots.modify slot.sequence (Slot.confirm w.config.1 now)
    queues := (w.queues.erase timer slot.sequence).push .waitData slot.sequence }

/-- Takes in a confirmation sent at `sent`. One sent before the slot was made is about an earlier
request and is ignored. -/
def acceptNcf (w : Window) (s : SeqNum) (sent now : Timestamp) : Window × Receipt :=
  if !w.isDefined then (w, .of .windowUndefined)
  else
    match w.slots.get? s with
    | none => (w, .of .unknown)
    | some slot =>
      if sent < slot.created then (w, .of .ok)
      else
        match slot.timer with
        | some timer => (w.restart slot timer now, .of .ok)
        | none => (w, .of (if slot.state = .lost then .apduLost else .duplicate))

/-! ### Status reports -/

/-- The window can work with groups of `size` packets, announced together with `shift`. -/
def acceptsGroupSize (w : Window) (size shift : Nat) : Bool :=
  shift < 32 && size = 1 <<< shift && size ≤ maxGroupSize && size ≤ w.capacity

/-- Some slot keeps parity, or data for repairing its group. -/
def holdsGroupData (w : Window) : Bool :=
  w.slots.cellList.any fun slot => slot.parity.isSome || slot.state = .retained

/-- Takes over the announced size of transmission groups. Two zeros announce nothing; a size that
makes no sense is ignored, and so is a change while a group is being repaired. -/
def announceGroups (w : Window) (size shift : Nat) : Window :=
  if size = 0 ∧ shift = 0 then w
  else if w.acceptsGroupSize size shift && !w.holdsGroupData then { w with groupSize := size }
  else w

/-- Follows the sender's lead. -/
def followLead (w : Window) (lead : SeqNum) (now : Timestamp) : Window × Outcome :=
  if lead.After w.lead then (w.advanceLead lead now, .createdPlaceholder) else (w, .ok)

/-- Gives up what is missing before `s`. -/
def losePending (w : Window) (s : SeqNum) : Window :=
  let stop := if s.After w.next then w.next else s
  ((w.commitTrail.upTo stop).filter (w.slotIs · (·.state.repairPending))).foldl loseApdu w

/-- Follows the sender's trail, which never moves back. -/
def followTrail (w : Window) (trail : SeqNum) : Window :=
  if trail.After w.senderTrail then { w with senderTrail := trail }.losePending trail else w

/-- Takes in a status report. An undefined window starts behind the sender's lead: it asks for
nothing that was sent before. -/
def acceptStatus (w : Window) (trail lead : SeqNum) (size shift : Nat) (now : Timestamp) :
    Window × Receipt :=
  if lead.next.Before trail then
    ({ w with counters := w.counters.addMalformed }, .of .malformedApdu)
  else
    let w := w.announceGroups size shift
    if !w.isDefined then ({ w.define lead.next with senderTrail := trail }, .of .ok)
    else
      let (w, outcome) := w.followLead lead now
      ((w.followTrail trail).resolve, .of outcome)

/-! ### Giving up on request -/

/-- Gives up the packet of number `s` with its APDU. -/
def acceptLoss (w : Window) (s : SeqNum) : Window × Receipt :=
  if !w.isDefined then (w, .of .windowUndefined)
  else if s.Before w.commitTrail then (w, .of .notInWindow)
  else
    match w.slots.get? s with
    | none => (w, .of .unknown)
    | some slot =>
      if slot.state = .lost then (w, .of .ok) else ((w.loseApdu s).resolve, .of .ok)

end ReliableMulticast.Window
