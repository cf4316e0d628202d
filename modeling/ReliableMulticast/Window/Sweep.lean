import ReliableMulticast.Slot.Timer
import ReliableMulticast.Window.Resolution

/-!
# Sweeping the timers

A sweep ends all timers that are due, kind by kind: it takes the due numbers off the queue, lets
their slots do what comes next, and queues those that send a request and wait on. Slots that used up
their requests are given up with their APDUs at the end.
-/

namespace ReliableMulticast

/-- The timer that runs after the request that this one made due. -/
def Timer.afterRequest : Timer → Timer
  | .backOff => .waitNcf
  | .waitNcf => .waitNcf
  | .waitData => .waitData

/-- A timer that ended: the number of its slot and the stage of the request that is due, none if the
slot used up its requests. -/
structure Ended where
  sequence : SeqNum
  stage : Option NakStage
  deriving DecidableEq, Repr

namespace Ended

/-- The request that is due. -/
def nak? (e : Ended) : Option (SeqNum × NakStage) := e.stage.map fun stage => (e.sequence, stage)

/-- The numbers whose slots used up their requests. -/
def exhausted (ended : List Ended) : List SeqNum :=
  (ended.filter (·.stage.isNone)).map (·.sequence)

/-- The numbers whose slots send a request. -/
def requesting (ended : List Ended) : List SeqNum :=
  (ended.filter (·.stage.isSome)).map (·.sequence)

end Ended

namespace Window

/-- When the given timer of number `s` ends, if its slot runs that timer. -/
def expiryIn (w : Window) (timer : Timer) (s : SeqNum) : Option Timestamp :=
  match w.slots.get? s with
  | none => none
  | some slot => if slot.timer = some timer then slot.expiry else none

/-- Ends the timer of each of the given numbers. -/
def endTimers (timer : Timer) (now : Timestamp) : List SeqNum → Window → Window × List Ended
  | [], w => (w, [])
  | s :: rest, w =>
    match w.slots.get? s with
    | none => endTimers timer now rest w
    | some slot =>
      let (expired, stage) := slot.expire w.config.1 now timer
      let (w, ended) := endTimers timer now rest (w.modify s fun _ => expired)
      (w, ⟨s, stage⟩ :: ended)

/-- Ends the timers of one kind that are due. -/
def endDue (w : Window) (now : Timestamp) (timer : Timer) : Window × List Ended :=
  let (due, queues) := w.queues.popDue timer now (w.expiryIn timer)
  let (w, ended) := endTimers timer now due { w with queues }
  ({ w with queues := w.queues.pushAll timer.afterRequest (Ended.requesting ended) }, ended)

/-- Ends all timers that are due. -/
def endAllDue (w : Window) (now : Timestamp) : Window × List Ended :=
  let (w, first) := w.endDue now .backOff
  let (w, second) := w.endDue now .waitNcf
  let (w, third) := w.endDue now .waitData
  (w, first ++ second ++ third)

/-- Ends all timers that are due, gives up what is exhausted, and returns the requests to send. -/
def sweepAll (w : Window) (now : Timestamp) : Window × List NakRequest :=
  if !w.isDefined then (w, [])
  else
    let (w, ended) := w.endAllDue now
    (((Ended.exhausted ended).foldl loseApdu w).resolve,
      NakRequest.coalesce (ended.filterMap Ended.nak?))

/-- When the number at the front of a queue has to be looked at. -/
def frontExpiry (w : Window) (timer : Timer) : Option Timestamp :=
  (w.queues.front? timer).bind fun s => (w.slots.get? s).bind Slot.expiry

/-- The first of the expiry times at the fronts of the queues. -/
def firstExpiry (w : Window) : Option Timestamp :=
  ([Timer.backOff, .waitNcf, .waitData].filterMap w.frontExpiry).min?

end Window

end ReliableMulticast
