import ReliableMulticast.Slot.Basic

/-!
# Timer queues

One first-in first-out queue of sequence numbers for each timer. Timers of one kind all run equally
long, so the numbers in a queue stand in the order of their expiry and only the front has to be
looked at. A number whose slot no longer runs the timer is stale and is dropped when it comes to
the front.
-/

namespace ReliableMulticast

structure TimerQueues where
  backOff : List SeqNum
  waitNcf : List SeqNum
  waitData : List SeqNum
  deriving DecidableEq, Repr

namespace TimerQueues

def empty : TimerQueues := ⟨[], [], []⟩

/-- The numbers that wait for the timer, front first. -/
def queue (q : TimerQueues) : Timer → List SeqNum
  | .backOff => q.backOff
  | .waitNcf => q.waitNcf
  | .waitData => q.waitData

/-- The queues with one of them replaced. -/
def set (q : TimerQueues) (t : Timer) (numbers : List SeqNum) : TimerQueues :=
  match t with
  | .backOff => { q with backOff := numbers }
  | .waitNcf => { q with waitNcf := numbers }
  | .waitData => { q with waitData := numbers }

theorem queue_set (q : TimerQueues) (t u : Timer) (numbers : List SeqNum) :
    (q.set t numbers).queue u = if u = t then numbers else q.queue u := by
  cases t <;> cases u <;> rfl

/-- Puts numbers at the end of a queue. -/
def pushAll (q : TimerQueues) (t : Timer) (numbers : List SeqNum) : TimerQueues :=
  q.set t (q.queue t ++ numbers)

def push (q : TimerQueues) (t : Timer) (s : SeqNum) : TimerQueues := q.pushAll t [s]

def front? (q : TimerQueues) (t : Timer) : Option SeqNum := (q.queue t).head?

def contains (q : TimerQueues) (t : Timer) (s : SeqNum) : Bool := (q.queue t).contains s

/-- Takes out the first occurrence of a number, if there is one. -/
def erase (q : TimerQueues) (t : Timer) (s : SeqNum) : TimerQueues := q.set t ((q.queue t).erase s)

/-- Takes out the first occurrence of a number; none if there is none. -/
def remove? (q : TimerQueues) (t : Timer) (s : SeqNum) : Option TimerQueues :=
  if q.contains t s then some (q.erase t s) else none

/-- Takes a slot's number out of the queue of its running timer. -/
def unqueue (q : TimerQueues) (slot : Slot) : TimerQueues :=
  match slot.timer with
  | none => q
  | some t => q.erase t slot.sequence

def length (q : TimerQueues) (t : Timer) : Nat := (q.queue t).length

def size (q : TimerQueues) : Nat := q.backOff.length + q.waitNcf.length + q.waitData.length

/-- Splits a queue in the numbers at its front that are due at `now` and the rest. Numbers without
expiry are stale: they hold up nothing and are dropped on the way. -/
def splitDue (now : Timestamp) (expiry : SeqNum → Option Timestamp) :
    List SeqNum → List SeqNum × List SeqNum
  | [] => ([], [])
  | s :: rest =>
    match expiry s with
    | none => splitDue now expiry rest
    | some e =>
      if e ≤ now then
        let (due, later) := splitDue now expiry rest
        (s :: due, later)
      else ([], s :: rest)

/-- Takes the numbers that are due at `now` off the front of a queue. -/
def popDue (q : TimerQueues) (t : Timer) (now : Timestamp) (expiry : SeqNum → Option Timestamp) :
    List SeqNum × TimerQueues :=
  let (due, later) := splitDue now expiry (q.queue t)
  (due, q.set t later)

end TimerQueues

end ReliableMulticast
