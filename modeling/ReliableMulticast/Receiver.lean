import ReliableMulticast.Sessions

/-!
# The receiver

A receiver routes packets to the windows of their sessions and is the windows' clock: with every
packet it repairs the group that became repairable and hands on what became ready, and with every
tick it ends the timers that are due. What it has to tell the network and the application are
events, in the order in which they happen within each session.
-/

namespace ReliableMulticast

/-- What a receiver tells the outside. -/
inductive Event where
  /-- A request to be sent to the session's sender. -/
  | nak (tsi : Tsi) (request : NakRequest)
  /-- An APDU for the application. -/
  | message (tsi : Tsi) (m : Message)
  /-- So many numbers were given up. -/
  | loss (tsi : Tsi) (count : UInt32)

def Event.tsi : Event → Tsi
  | .nak tsi _ => tsi
  | .message tsi _ => tsi
  | .loss tsi _ => tsi

namespace Window

/-! ### Serving one window -/

/-- The events of a read: its losses come before its messages. -/
def deliveryEvents (w : Window) (d : Delivery) : List Event :=
  (if 0 < d.lost then [Event.loss w.tsi d.lost] else []) ++ d.messages.map (Event.message w.tsi)

/-- Reads and reclaims at most `rounds` times, as long as there is something to read. -/
def drainRounds (maxRead : Nat) : Nat → Window → Window × List Event
  | 0, w => (w, [])
  | rounds + 1, w =>
    if !w.hasPending then (w, [])
    else
      let (w, delivery) := w.read maxRead
      if delivery.outcome ≠ .ok ∨ delivery.isEmpty then (w, [])
      else
        let (w, _) := w.release
        let events := w.deliveryEvents delivery
        let (w, later) := drainRounds maxRead rounds w
        (w, events ++ later)

/-- Reads and reclaims until nothing is left to read. Every read but one takes a slot, and the other
one reports losses that have none. -/
def drain (w : Window) (maxRead : Nat) : Window × List Event :=
  drainRounds maxRead (w.slots.size + 1) w

/-- Repairs a group, if there is one and a decoder for it. Packets that it fails to repair stay
missing. -/
def tryRepair (w : Window) (group : Option Group) (decoder : Option Decoder) (now : Timestamp) :
    Window :=
  match group, decoder with
  | some g, some decode => (w.repair g decode now).1
  | _, _ => w

/-- What follows the arrival of a packet: its group is repaired and the window is drained. The group
is used up and not part of the receipt any more. -/
def settle (maxRead : Nat) (decoder : Option Decoder) (now : Timestamp) :
    Window × Receipt → Window × Receipt × List Event
  | (w, receipt) =>
    let (w, events) := (w.tryRepair receipt.repairable decoder now).drain maxRead
    (w, { receipt with repairable := none }, events)

/-- A tick of one window: the requests that are due, then what is ready. -/
def tick (maxRead : Nat) (now : Timestamp) (w : Window) : Window × List Event :=
  let (w, requests) := w.sweep now
  let (w, events) := w.drain maxRead
  (w, requests.map (Event.nak w.tsi) ++ events)

end Window

/-! ### Serving all sessions -/

structure Receiver where
  config : ValidReceiverConfig
  decoder : Option Decoder
  sessions : Sessions

namespace Receiver

def create (windows : ValidConfig) (config : ValidReceiverConfig) (decoder : Option Decoder) :
    Receiver :=
  ⟨config, decoder, .empty windows⟩

/-- Gives a session's window a packet with `op` and serves it. -/
def arrive (r : Receiver) (tsi : Tsi) (now : Timestamp) (op : Window → Window × Receipt) :
    Receiver × Receipt × List Event :=
  let (sessions, answer) :=
    r.sessions.onSession tsi fun w => Window.settle r.config.1.maxRead r.decoder now (op w)
  ({ r with sessions }, answer)

/-- Takes in a data packet; without a `source` it is no repair. -/
def onData (r : Receiver) (p : Packet) (source : Option RepairSource) (now : Timestamp) :
    Receiver × Receipt × List Event :=
  r.arrive p.tsi now fun w =>
    match source with
    | none => w.push p now
    | some source => w.pushRepair p source now

/-- Takes in a parity packet. -/
def onParity (r : Receiver) (p : Packet) (now : Timestamp) : Receiver × Receipt × List Event :=
  r.arrive p.tsi now (·.pushParity p now)

/-- Takes in a status report, which may be the first sign of a session. -/
def onStatus (r : Receiver) (tsi : Tsi) (trail lead : SeqNum) (size shift : Nat) (now : Timestamp) :
    Receiver × Receipt × List Event :=
  r.arrive tsi now (·.updateStatus trail lead size shift now)

/-- Takes in a confirmation, which is about nothing if the session is unknown. -/
def onNcf (r : Receiver) (tsi : Tsi) (s : SeqNum) (sent now : Timestamp) : Receiver × Receipt :=
  let (sessions, answer) := r.sessions.onRegistered tsi (·.confirmNak s sent now)
  ({ r with sessions }, answer.getD (.of .unknown))

/-- Serves all sessions. -/
def tick (r : Receiver) (now : Timestamp) : Receiver × List Event :=
  let (sessions, events) := r.sessions.onAll (Window.tick r.config.1.maxRead now)
  ({ r with sessions }, events)

/-- Ends a session and says whether there was one. -/
def remove (r : Receiver) (tsi : Tsi) : Receiver × Bool :=
  let (sessions, handle) := r.sessions.remove tsi
  ({ r with sessions }, handle.isSome)

/-- Ends all sessions. -/
def shutdownAll (r : Receiver) : Receiver := { r with sessions := r.sessions.shutdownAll }

/-! ### Histories -/

/-- An operation with its arguments. -/
inductive Op where
  | data (p : Packet) (source : Option RepairSource)
  | parity (p : Packet)
  | ncf (tsi : Tsi) (s : SeqNum) (sent : Timestamp)
  | status (tsi : Tsi) (trail lead : SeqNum) (size shift : Nat)
  | tick
  | remove (tsi : Tsi)
  | shutdownAll

/-- What an operation answers, beside the events it causes. -/
inductive Answer where
  | receipt (r : Receipt)
  | removed (found : Bool)
  | nothing

/-- Does one operation at the time `now`. -/
def step (r : Receiver) (now : Timestamp) : Op → Receiver × Answer × List Event
  | .data p source => (r.onData p source now).map id (·.map .receipt id)
  | .parity p => (r.onParity p now).map id (·.map .receipt id)
  | .ncf tsi s sent => (r.onNcf tsi s sent now).map id (.receipt ·, [])
  | .status tsi trail lead size shift =>
    (r.onStatus tsi trail lead size shift now).map id (·.map .receipt id)
  | .tick => (r.tick now).map id (.nothing, ·)
  | .remove tsi => (r.remove tsi).map id (.removed ·, [])
  | .shutdownAll => (r.shutdownAll, .nothing, [])

/-- Does operations, each at its time, and returns what they answered and caused. -/
def run (r : Receiver) : List (Timestamp × Op) → Receiver × List (Answer × List Event)
  | [] => (r, [])
  | (now, op) :: rest =>
    let (r, result) := r.step now op
    let (r, results) := r.run rest
    (r, result :: results)

end Receiver

end ReliableMulticast
