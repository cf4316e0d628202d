import ReliableMulticast.Receiver

/-!
# A receiver in time

A receiver with the clock it reads and, once it is started, the loop that ticks it. The loop ticks
at its start and then at whole multiples of the tick interval after it. It goes by the time that
passes: setting the clock changes what the ticks read and not when they come.
-/

namespace ReliableMulticast

structure Timeline where
  receiver : Receiver
  /-- What the clock shows. -/
  clock : Timestamp
  /-- The time that passed so far. -/
  elapsed : Duration
  /-- When, in time passed, the loop was started. -/
  loopStart : Option Duration

namespace Timeline

def start (receiver : Receiver) : Timeline := ⟨receiver, 0, ⟨0⟩, none⟩

def setClock (t : Timeline) (clock : Timestamp) : Timeline := { t with clock }

/-- Lets the receiver do an operation, which takes no time. -/
def act (t : Timeline) (op : Receiver.Op) : Timeline × Receiver.Answer × List Event :=
  let (receiver, result) := t.receiver.step t.clock op
  ({ t with receiver }, result)

def tick (t : Timeline) : Timeline × List Event :=
  let (receiver, events) := t.receiver.tick t.clock
  ({ t with receiver }, events)

/-- Lets time pass in which nothing happens. -/
def pass (t : Timeline) (d : Duration) : Timeline :=
  { t with clock := t.clock + d, elapsed := ⟨t.elapsed.nanos + d.nanos⟩ }

/-- Starts the loop, which ticks at once, unless it was started before. -/
def spawn (t : Timeline) : Timeline × List Event :=
  match t.loopStart with
  | some _ => (t, [])
  | none => { t with loopStart := some t.elapsed }.tick

/-- Lets the loop tick `count` times, first after `wait` and then at every interval. -/
def tickEvery (interval : Duration) : Nat → Duration → Timeline → Timeline × List Event
  | 0, _, t => (t, [])
  | count + 1, wait, t =>
    let (t, events) := (t.pass wait).tick
    let (t, later) := tickEvery interval count interval t
    (t, events ++ later)

/-- Lets time pass, with the ticks of the loop that come in it. -/
def sleep (t : Timeline) (d : Duration) : Timeline × List Event :=
  match t.loopStart with
  | none => (t.pass d, [])
  | some loopStart =>
    let interval := t.receiver.config.1.tick
    let running := t.elapsed.nanos - loopStart.nanos
    let stop := t.elapsed.nanos + d.nanos
    let count := (running + d.nanos) / interval.nanos - running / interval.nanos
    let wait := interval.nanos - running % interval.nanos
    let (t, events) := tickEvery interval count ⟨wait⟩ t
    (t.pass ⟨stop - t.elapsed.nanos⟩, events)

end Timeline

end ReliableMulticast
