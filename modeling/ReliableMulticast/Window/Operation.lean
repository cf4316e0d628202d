import ReliableMulticast.Window.Delivery
import ReliableMulticast.Window.Parity
import ReliableMulticast.Window.Status
import ReliableMulticast.Window.Sweep

/-!
# Operations on a window

What the owner of a window may call. All of it is safe at any time: packets of other sessions are
turned away, and a window that was shut down answers that it is gone and changes no more. `Op`
names the operations as data, so that a history of a window is a list and `run` is its outcome.
-/

namespace ReliableMulticast

/-- Why a repair failed. -/
inductive RepairError where
  /-- The decoder failed with this text. -/
  | decoder (text : String)
  /-- The window was shut down. -/
  | gone (tsi : Tsi)
  deriving DecidableEq, Repr

def RepairError.message : RepairError → String
  | .decoder text => text
  | .gone tsi => s!"receive window for {tsi} was shut down"

namespace Window

/-- Does an operation unless the window is gone. -/
def whileLive {α : Type} (w : Window) (gone : α) (op : Window → Window × α) : Window × α :=
  if w.isGone then (w, gone) else op w

/-- Does an operation with a packet of the window's own session. -/
def forSession (w : Window) (tsi : Tsi) (op : Window → Window × Receipt) : Window × Receipt :=
  if tsi ≠ w.tsi then (w, .of .unknown) else w.whileLive (.of .windowGone) op

/-- Takes in a data packet that was sent unasked. -/
def push (w : Window) (p : Packet) (now : Timestamp) : Window × Receipt :=
  w.forSession p.tsi (·.acceptData p none now)

/-- Takes in a data packet that is a repair. -/
def pushRepair (w : Window) (p : Packet) (source : RepairSource) (now : Timestamp) :
    Window × Receipt :=
  w.forSession p.tsi (·.acceptData p (some source) now)

/-- Takes in a parity packet. -/
def pushParity (w : Window) (p : Packet) (now : Timestamp) : Window × Receipt :=
  w.forSession p.tsi (·.acceptParity p now)

/-- Takes in the confirmation of a repair request. -/
def confirmNak (w : Window) (s : SeqNum) (sent now : Timestamp) : Window × Receipt :=
  w.whileLive (.of .windowGone) (·.acceptNcf s sent now)

/-- Takes in a status report of the sender. -/
def updateStatus (w : Window) (trail lead : SeqNum) (size shift : Nat) (now : Timestamp) :
    Window × Receipt :=
  w.whileLive (.of .windowGone) (·.acceptStatus trail lead size shift now)

/-- Gives up the packet of a number. -/
def markLost (w : Window) (s : SeqNum) : Window × Receipt :=
  w.whileLive (.of .windowGone) (·.acceptLoss s)

/-- Ends the timers that are due and returns the requests to send. -/
def sweep (w : Window) (now : Timestamp) : Window × List NakRequest :=
  w.whileLive [] (·.sweepAll now)

/-- Hands out at most `count` APDUs and the losses before them. -/
def read (w : Window) (count : Nat) : Window × Delivery :=
  w.whileLive (.nothing .windowGone) (·.readReady count)

/-- Reclaims the delivered slots at the trail and returns their number. -/
def release (w : Window) : Window × Nat := w.whileLive 0 (·.releaseDelivered)

/-- Drops the data of the delivered slots. -/
def free (w : Window) : Window := if w.isGone then w else w.freeDelivered

/-- Shuts the window down: it is empty and gone. -/
def shutdown (w : Window) : Window :=
  if w.isGone then w
  else { w with isGone := true, slots := w.slots.reset w.trail, queues := .empty }

/-- Computes the given missing members of a group and takes them in, and returns how many of them
filled a slot. -/
def repairMembers (g : Group) (decode : Decoder) (now : Timestamp) :
    List SeqNum → Window → Window × Except RepairError Nat
  | [], w => (w, .ok 0)
  | s :: rest, w =>
    match decode g s with
    | .error text => (w, .error (.decoder text))
    | .ok payload =>
      let (w, receipt) := w.pushRepair ⟨g.tsi, s, none, payload⟩ .parity now
      if receipt.outcome = .windowGone then (w, .error (.gone w.tsi))
      else
        let (w, filled) := repairMembers g decode now rest w
        (w, filled.map (· + if receipt.outcome = .filledPlaceholder then 1 else 0))

/-- Computes the missing members of a group and takes them in. -/
def repair (w : Window) (g : Group) (decode : Decoder) (now : Timestamp) :
    Window × Except RepairError Nat :=
  repairMembers g decode now g.missing w

/-! ### Questions -/

/-- There is something to read. -/
def hasPending (w : Window) : Bool := !w.isGone && w.hasReady

/-- The first moment at which a sweep has something to do. -/
def nextExpiry (w : Window) : Option Timestamp := if w.isGone then none else w.firstExpiry

/-! ### Histories -/

/-- An operation with its arguments. -/
inductive Op where
  | push (p : Packet) (now : Timestamp)
  | pushRepair (p : Packet) (source : RepairSource) (now : Timestamp)
  | pushParity (p : Packet) (now : Timestamp)
  | confirmNak (s : SeqNum) (sent now : Timestamp)
  | updateStatus (trail lead : SeqNum) (size shift : Nat) (now : Timestamp)
  | markLost (s : SeqNum)
  | sweep (now : Timestamp)
  | read (count : Nat)
  | release
  | free
  | shutdown
  | repair (g : Group) (decode : Decoder) (now : Timestamp)

/-- What an operation answers. -/
inductive Answer where
  | receipt (r : Receipt)
  | naks (requests : List NakRequest)
  | delivery (d : Delivery)
  | released (count : Nat)
  | repaired (result : Except RepairError Nat)
  | nothing

/-- Does one operation. -/
def step (w : Window) : Op → Window × Answer
  | .push p now => (w.push p now).map id .receipt
  | .pushRepair p source now => (w.pushRepair p source now).map id .receipt
  | .pushParity p now => (w.pushParity p now).map id .receipt
  | .confirmNak s sent now => (w.confirmNak s sent now).map id .receipt
  | .updateStatus trail lead size shift now =>
    (w.updateStatus trail lead size shift now).map id .receipt
  | .markLost s => (w.markLost s).map id .receipt
  | .sweep now => (w.sweep now).map id .naks
  | .read count => (w.read count).map id .delivery
  | .release => w.release.map id .released
  | .free => (w.free, .nothing)
  | .shutdown => (w.shutdown, .nothing)
  | .repair g decode now => (w.repair g decode now).map id .repaired

/-- The window after a history of operations. -/
def run (w : Window) (ops : List Op) : Window := ops.foldl (fun w op => (w.step op).1) w

end Window

end ReliableMulticast
