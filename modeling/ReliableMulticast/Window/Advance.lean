import ReliableMulticast.Window.Basic

/-!
# Moving the lead

A number ahead of the lead moves the window: slots at the trail make room, and the numbers skipped
over get placeholders whose first timer runs. What leaves the window undelivered is lost. If the
lead moves by more than the window holds, the numbers that never get a slot are lost as well, and
are only counted.
-/

namespace ReliableMulticast.Window

/-- Drops the slot at the trail. A slot that was not delivered is lost, and what follows it has to
be resolved again. -/
def evictTrail (w : Window) : Window :=
  match w.slots.popTrail? with
  | none => w
  | some (slot, slots) =>
    let evicted : Window := { w with slots, queues := w.queues.unqueue slot }
    if w.trail.Before w.commitTrail then evicted
    else
      let losses := if slot.state = .lost then 0 else 1
      let moved : Window :=
        { evicted with
          commitTrail := slots.trail
          commitLead := slots.trail
          counters := w.counters.addLosses losses }
      moved.addUnreported 1

/-- Drops the first `n` slots. -/
def evict : Nat → Window → Window
  | 0, w => w
  | n + 1, w => evict n w.evictTrail

/-- Moves an empty window to `target` if that is ahead, and counts the numbers between as lost. -/
def skipTo (w : Window) (target : SeqNum) : Window :=
  if w.trail.Before target then
    let skipped := w.trail.gap target
    let moved : Window :=
      { w with slots := w.slots.reset target, counters := w.counters.addLosses skipped }
    moved.addUnreported skipped
  else w

/-- Moves the readable part forward to where the window begins. -/
def clampCommit (w : Window) : Window :=
  let commitTrail := if w.commitTrail.Before w.trail then w.trail else w.commitTrail
  let commitLead := if w.commitLead.Before commitTrail then commitTrail else w.commitLead
  { w with commitTrail, commitLead }

/-- Moves the trail far enough forward that `last` fits into the window. -/
def makeRoom (w : Window) (last : SeqNum) : Window :=
  let target := last - (w.capacity - 1)
  ((evict (min w.slots.size (w.trail.steps target)) w).skipTo target).clampCommit

/-- Appends a placeholder whose first timer starts at `now`. -/
def addPlaceholder (now : Timestamp) (w : Window) (s : SeqNum) : Window :=
  w.append (Slot.placeholder s now (now + w.config.1.backOff))

/-- Appends placeholders up to and without `stop` and queues them. -/
def addPlaceholders (w : Window) (stop : SeqNum) (now : Timestamp) : Window :=
  let numbers := w.next.upTo stop
  { numbers.foldl (addPlaceholder now) w with queues := w.queues.pushAll .backOff numbers }

/-- Moves the lead to `lead`; nothing has arrived for the new numbers. -/
def advanceLead (w : Window) (lead : SeqNum) (now : Timestamp) : Window :=
  (w.makeRoom lead).addPlaceholders lead.next now

end ReliableMulticast.Window
