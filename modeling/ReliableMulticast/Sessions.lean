import ReliableMulticast.Window.Operation

/-!
# Sessions

The receive windows of all senders that a receiver knows. A session has at most one registered
window; it is made on first contact. Every window ever made keeps its place in the table, and the
place is its handle: after a session is removed its window is shut down but can still be asked, and
the next contact makes a new window at a new place.
-/

namespace ReliableMulticast

/-- A window and whether it is the one of its session. -/
structure Session where
  window : Window
  registered : Bool

/-- Takes a window out of its session and shuts it down. -/
def Session.retire (e : Session) : Session := ⟨e.window.shutdown, false⟩

structure Sessions where
  config : ValidConfig
  /-- All windows ever made, in the order of their making. -/
  entries : List Session

namespace Sessions

def empty (config : ValidConfig) : Sessions := ⟨config, []⟩

/-- The handle of a session's registered window. -/
def find? (s : Sessions) (tsi : Tsi) : Option Nat :=
  s.entries.findIdx? fun e => e.registered && e.window.tsi = tsi

/-- The window of a handle. -/
def window? (s : Sessions) (handle : Nat) : Option Window := (s.entries[handle]?).map (·.window)

/-- A session's registered window. -/
def get? (s : Sessions) (tsi : Tsi) : Option Window := (s.find? tsi).bind s.window?

/-- The number of registered windows. -/
def size (s : Sessions) : Nat := s.entries.countP (·.registered)

def isEmpty (s : Sessions) : Bool := s.size = 0

/-- The handles and sessions of the registered windows, by handle. -/
def registered (s : Sessions) : List (Nat × Tsi) :=
  (s.entries.zipIdx.filter (·.1.registered)).map fun (e, handle) => (handle, e.window.tsi)

/-- Puts a window in place of the one with its handle, or registers it as a new one. -/
def put (s : Sessions) (handle : Nat) (w : Window) : Sessions :=
  if handle < s.entries.length then
    { s with entries := s.entries.modify handle fun e => { e with window := w } }
  else { s with entries := s.entries ++ [⟨w, true⟩] }

/-- The handle and the window of a session; a new window if it has none. -/
def contact (s : Sessions) (tsi : Tsi) : Nat × Window :=
  match s.find? tsi with
  | some handle => (handle, (s.window? handle).getD (.create tsi s.config))
  | none => (s.entries.length, .create tsi s.config)

/-- The handle of a session's window, which is made if there is none. -/
def getOrCreate (s : Sessions) (tsi : Tsi) : Sessions × Nat :=
  let (handle, w) := s.contact tsi
  (s.put handle w, handle)

/-- Does an operation on a session's window, which is made if there is none. -/
def onSession {α : Type} (s : Sessions) (tsi : Tsi) (op : Window → Window × α) : Sessions × α :=
  let (handle, w) := s.contact tsi
  let (w, answer) := op w
  (s.put handle w, answer)

/-- Does an operation on the window of a handle. -/
def onHandle {α : Type} (s : Sessions) (handle : Nat) (op : Window → Window × α) :
    Sessions × Option α :=
  match s.window? handle with
  | none => (s, none)
  | some w =>
    let (w, answer) := op w
    (s.put handle w, some answer)

/-- Does an operation on a session's window, if it has one. -/
def onRegistered {α : Type} (s : Sessions) (tsi : Tsi) (op : Window → Window × α) :
    Sessions × Option α :=
  match s.find? tsi with
  | none => (s, none)
  | some handle => s.onHandle handle op

/-- Ends a session and returns the handle of its window. -/
def remove (s : Sessions) (tsi : Tsi) : Sessions × Option Nat :=
  match s.find? tsi with
  | none => (s, none)
  | some handle => ({ s with entries := s.entries.modify handle Session.retire }, some handle)

/-- Ends all sessions. -/
def shutdownAll (s : Sessions) : Sessions :=
  { s with entries := s.entries.map fun e => if e.registered then e.retire else e }

/-- Does an operation on every registered window and collects the answers. -/
def visit {α : Type} (op : Window → Window × List α) : List Session → List Session × List α
  | [] => ([], [])
  | e :: rest =>
    let (rest, later) := visit op rest
    if e.registered then
      let (w, answers) := op e.window
      (⟨w, true⟩ :: rest, answers ++ later)
    else (e :: rest, later)

/-- Does an operation on every registered window, by handle, and collects the answers. -/
def onAll {α : Type} (s : Sessions) (op : Window → Window × List α) : Sessions × List α :=
  let (entries, answers) := visit op s.entries
  ({ s with entries }, answers)

/-! ### Histories -/

/-- An operation on the table, or through a handle on a window. -/
inductive Op where
  | getOrCreate (tsi : Tsi)
  | remove (tsi : Tsi)
  | shutdownAll
  | window (handle : Nat) (op : Window.Op)

/-- What an operation answers. -/
inductive Answer where
  | handle (h : Option Nat)
  | window (answer : Option Window.Answer)
  | nothing

/-- Does one operation. -/
def step (s : Sessions) : Op → Sessions × Answer
  | .getOrCreate tsi => (s.getOrCreate tsi).map id fun h => .handle (some h)
  | .remove tsi => (s.remove tsi).map id .handle
  | .shutdownAll => (s.shutdownAll, .nothing)
  | .window handle op => (s.onHandle handle (·.step op)).map id .window

/-- The table after a history of operations. -/
def run (s : Sessions) (ops : List Op) : Sessions := ops.foldl (fun s op => (s.step op).1) s

end Sessions

end ReliableMulticast
