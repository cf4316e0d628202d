import ReliableMulticast.Window.Resolution
import ReliableMulticast.Receipt

/-!
# Delivery

`read` hands out the complete APDUs from the readable part in order and counts the losses between
them, in 32 bits that can run over (`Delivery.overflows`). Delivered slots stay in the window until
`release` reclaims them from the trail, or `free` drops their data early; both spare a slot whose data
may still repair its transmission group.
-/

namespace ReliableMulticast

/-- An APDU handed to the application: its first number, how many packets it came in, its data. -/
structure Message where
  first : SeqNum
  packets : Nat
  payload : ByteArray

/-- What a read comes to. Of its losses it hands out a count of 32 bits, `lost`. -/
structure Delivery where
  outcome : Outcome
  messages : List Message
  /-- The numbers given up since the read before, as many as there are. -/
  losses : Nat

namespace Delivery

def nothing (o : Outcome) : Delivery := ⟨o, [], 0⟩

/-- The bytes of all messages together. -/
def bytes (d : Delivery) : Nat := d.messages.foldr (fun m n => m.payload.size + n) 0

/-- The count of the losses that is handed out. It grows by one at a time and wraps around, which
comes to the same as wrapping the sum. -/
def lost (d : Delivery) : UInt32 := .ofNat d.losses

/-- The count ran over. This is a fault: where additions are checked the read fails with it, and where
they are not it hands out a count that is too small by 2^32. -/
def overflows (d : Delivery) : Bool := maxReported < d.losses

/-- Nothing is handed out. -/
def isEmpty (d : Delivery) : Bool := d.messages.isEmpty && d.lost = 0

def addLoss (d : Delivery) : Delivery := { d with losses := d.losses + 1 }

def addMessage (d : Delivery) (m : Message) : Delivery := { d with messages := m :: d.messages }

theorem overflows_iff {d : Delivery} : d.overflows ↔ maxReported < d.losses := decide_eq_true_iff

theorem toNat_lost (d : Delivery) : d.lost.toNat = d.losses % 4294967296 := UInt32.toNat_ofNat'

/-- As long as the count does not run over, it is the number of losses. -/
theorem toNat_lost_of_fits {d : Delivery} (fits : d.overflows = false) : d.lost.toNat = d.losses := by
  have hle : d.losses ≤ maxReported := Nat.not_lt.1 (of_decide_eq_false fits)
  rw [toNat_lost]
  exact Nat.mod_eq_of_lt (Nat.lt_succ_of_le hle)

/-- Where there are losses, the count tells some or runs over. -/
theorem losses_pos_iff {d : Delivery} : 0 < d.losses ↔ 0 < d.lost ∨ d.overflows := by
  rw [UInt32.lt_iff_toNat_lt, UInt32.toNat_zero, toNat_lost, overflows_iff, maxReported]
  omega

end Delivery

namespace Window

/-- There is something to read. -/
def hasReady (w : Window) : Bool := w.commitTrail ≠ w.commitLead ∨ 0 < w.unreportedLosses

/-! ### Reading -/

/-- How many packets the complete APDU at `first` has. -/
def apduCount? (w : Window) (first : SeqNum) (head : Slot) : Option Nat :=
  match head.fragment with
  | none => some 1
  | some f =>
    match w.scanApdu first f.totalLength.toNat with
    | .complete count => some count
    | _ => none

/-- The data of the given numbers, one after the other. -/
def joinPayloads (w : Window) (numbers : List SeqNum) : ByteArray :=
  numbers.foldl (fun bytes s => bytes ++ ((w.slots.get? s).bind Slot.payload).getD .empty) .empty

/-- Marks the slots of the given numbers as delivered. -/
def commitSlots (w : Window) (numbers : List SeqNum) : Window :=
  numbers.foldl (fun w s => w.modify s Slot.commit) w

/-- Delivers the APDU of `count` packets at the front of the readable part. -/
def deliver (w : Window) (count : Nat) : Window × Message :=
  let numbers := w.commitTrail.run count
  let payload := w.joinPayloads numbers
  ({ w.commitSlots numbers with
      commitTrail := w.commitTrail + count
      counters := w.counters.addMessage payload.size },
    ⟨w.commitTrail, count, payload⟩)

/-- Takes up to `room` messages out of the readable part, which has `length` numbers, and passes the
losses in front of each of them. -/
def takeReady (room : Nat) : Nat → Window → Window × Delivery
  | 0, w => (w, .nothing .ok)
  | length + 1, w =>
    if w.commitTrail = w.commitLead ∨ room = 0 then (w, .nothing .ok)
    else
      match w.slots.get? w.commitTrail with
      | none => (w, .nothing .ok)
      | some slot =>
        if slot.state = .lost then
          let (w, rest) := takeReady room length { w with commitTrail := w.commitTrail.next }
          (w, rest.addLoss)
        else
          match w.apduCount? w.commitTrail slot with
          | none => ({ w with commitLead := w.commitTrail }, .nothing .ok)
          | some count =>
            let (w, message) := w.deliver count
            let (w, rest) := takeReady (room - 1) length w
            (w, rest.addMessage message)

/-- Hands out at most `count` APDUs with the losses not reported before. -/
def readReady (w : Window) (count : Nat) : Window × Delivery :=
  let (read, delivery) := takeReady count (w.commitTrail.gap w.commitLead)
    { w with unreportedLosses := 0 }
  (read.resolve, { delivery with losses := w.unreportedLosses + delivery.losses })

/-! ### Reclaiming -/

/-- A delivered slot is kept while its data may repair another member of its transmission group: the
group is not yet all in the window, or all there, none lost and some still missing. -/
def isRetained (w : Window) (s : SeqNum) : Bool :=
  if w.groupSize ≤ 1 then false
  else if !w.slotIs s (·.state.delivered) then false
  else if (w.groupFirst s + w.groupSize).prev.After w.lead then true
  else
    match (w.groupNumbers s).mapM w.slots.get? with
    | none => false
    | some slots => slots.all (·.state ≠ .lost) && slots.any (·.state.repairPending)

/-- Drops the slot at the trail. -/
def dropTrail (w : Window) : Window :=
  match w.slots.popTrail? with
  | none => w
  | some (_, slots) => { w with slots }

/-- Reclaims at most `limit` slots from the trail up to `commitTrail`; a slot kept for its group
ends it. -/
def releaseUpTo : Nat → Window → Window × Nat
  | 0, w => (w, 0)
  | limit + 1, w =>
    if ¬ w.trail.Before w.commitTrail then (w, 0)
    else if w.isRetained w.trail then (w.modify w.trail Slot.retain, 0)
    else
      let (w, count) := releaseUpTo limit w.dropTrail
      (w, count + 1)

/-- Reclaims the delivered slots at the trail. -/
def releaseDelivered (w : Window) : Window × Nat := releaseUpTo (w.trail.gap w.commitTrail) w

/-- Drops the data of a delivered slot, or keeps it for its group. -/
def freeSlot (w : Window) (s : SeqNum) : Window :=
  w.modify s (if w.isRetained s then Slot.retain else Slot.dropPayload)

/-- Drops the data of all delivered slots that are not kept for their group. -/
def freeDelivered (w : Window) : Window := (w.trail.upTo w.commitTrail).foldl freeSlot w

end Window

end ReliableMulticast
