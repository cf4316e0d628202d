import ReliableMulticast.Proofs.Visiting

/-!
# Sessions do not see each other

All sessions share one table, one configuration and the ticks. Still what happens in a session
depends on nothing but the operations on that session, the ticks and the times
(`sessions_isolated`). `serve` is what a receiver does for one session, given that session's window
alone. Every step of a receiver does that for the sessions it concerns and leaves the others as they
are (`Steps.serves`), so a run does for a session what the operations that concern it do
(`Runs.serves`). A tick may visit the windows in any order, each time in another one.
-/

namespace ReliableMulticast

namespace Window

variable {w : Window} {config : ValidConfig} {maxRead : Nat}

theorem minds_tick (config : ValidConfig) (maxRead : Nat) (now : Timestamp) :
    Sessions.Minds config (tick maxRead now) where
  history := by
    intro w made
    rw [tick_eq made]
    exact ⟨_, rfl⟩
  own := by
    intro w made event hevent
    rw [tick_eq made] at hevent
    exact tsi_of_mem_caused hevent

end Window

namespace Receiver

variable {r r' : Receiver} {t : Tsi} {now : Timestamp} {op : Op}

/-! ### One session alone -/

namespace Op

/-- The session that an operation is about; a tick and the end of all sessions are about every
one. -/
def tsi? : Op → Option Tsi
  | .data p _ => some p.tsi
  | .parity p => some p.tsi
  | .ncf tsi _ _ => some tsi
  | .status tsi _ _ _ _ => some tsi
  | .remove tsi => some tsi
  | .tick => none
  | .shutdownAll => none

/-- The operation concerns a session. -/
def concerns (t : Tsi) (op : Op) : Bool := op.tsi?.all (· = t)

/-- The operation ends the sessions that it concerns. -/
def ends : Op → Bool
  | .remove _ => true
  | .shutdownAll => true
  | _ => false

/-- The call that brings the window of a session a packet or a report, which may be the first of
it. -/
def brings? (now : Timestamp) : Op → Option Window.Op
  | .data p none => some (.push p now)
  | .data p (some source) => some (.pushRepair p source now)
  | .parity p => some (.pushParity p now)
  | .status _ trail lead size shift => some (.updateStatus trail lead size shift now)
  | _ => none

/-- The calls that an operation makes on the window of a session that it concerns. -/
def calls (config : ValidReceiverConfig) (decoder : Option Decoder) (now : Timestamp) (w : Window)
    (op : Op) : List Window.Op :=
  match op.brings? now, op with
  | some call, _ => w.arriveCalls config.1.maxRead decoder now call
  | none, .ncf _ s sent => [.confirmNak s sent now]
  | none, .tick => w.tickCalls config.1.maxRead now
  | none, _ => [.shutdown]

end Op

/-- What is done for a session: the window it has then, the answer, and the session's events. -/
structure Service where
  window : Option Window
  answer : Answer
  events : List Event

section

variable (windows : ValidConfig) (config : ValidReceiverConfig) (decoder : Option Decoder)

/-- The window that an operation works on: the one of the session, or a new one if the operation
brings something. -/
def meets (t : Tsi) (now : Timestamp) (w? : Option Window) (op : Op) : Option Window :=
  if (op.brings? now).isSome then some (w?.getD (.create t windows)) else w?

/-- What an operation answers to the session that it concerns. -/
def answers (t : Tsi) (now : Timestamp) (w? : Option Window) (op : Op) : Answer :=
  match op.brings? now, op with
  | some call, _ =>
    .receipt { ((w?.getD (.create t windows)).receive call).2 with repairable := none }
  | none, .ncf _ s sent =>
    .receipt ((w?.map fun w => (w.receive (.confirmNak s sent now)).2).getD (.of .unknown))
  | none, .remove _ => .removed w?.isSome
  | none, _ => .nothing

/-- What an operation that concerns session `t` does for it, if the session has this window. -/
def serve (t : Tsi) (now : Timestamp) (w? : Option Window) (op : Op) : Service where
  window :=
    if op.ends then none
    else (meets windows t now w? op).map fun w => w.run (op.calls config decoder now w)
  answer := answers windows t now w? op
  events :=
    ((meets windows t now w? op).map fun w => w.caused (op.calls config decoder now w)).getD []

variable {windows config decoder} in
theorem serve_of_brings {call : Window.Op} (brings : op.brings? now = some call)
    (goesOn : op.ends = false) (w? : Option Window) :
    serve windows config decoder t now w? op =
      let w := w?.getD (.create t windows)
      let calls := w.arriveCalls config.1.maxRead decoder now call
      ⟨some (w.run calls), .receipt { (w.receive call).2 with repairable := none },
        w.caused calls⟩ := by
  simp [serve, meets, answers, Op.calls, brings, goesOn]

/-- What a list of operations that concern session `t` does for it. -/
def serveAll (t : Tsi) :
    Option Window → List (Timestamp × Op) → Option Window × List (Answer × List Event)
  | w?, [] => (w?, [])
  | w?, (now, op) :: rest =>
    let service := serve windows config decoder t now w? op
    let (w?, results) := serveAll t service.window rest
    (w?, (service.answer, service.events) :: results)

end

/-! ### Runs -/

/-- A tick that visits the windows with the given handles, one after the other. -/
def tickIn (r : Receiver) (now : Timestamp) (order : List Nat) : Receiver × List Event :=
  let (sessions, events) := Sessions.onEach (Window.tick r.config.1.maxRead now) order r.sessions
  ({ r with sessions }, events)

/-- What an operation can lead to: a tick visits all windows, in any order. -/
inductive Steps (r : Receiver) (now : Timestamp) : Op → Receiver → Answer → List Event → Prop
  | tick (order : List Nat) (all : order.Perm r.sessions.handles) :
      Steps r now .tick (r.tickIn now order).1 .nothing (r.tickIn now order).2
  | other {op : Op} (other : op ≠ .tick) :
      Steps r now op (r.step now op).1 (r.step now op).2.1 (r.step now op).2.2

/-- What operations, one after the other, can lead to, with all answers and events. -/
inductive Runs : Receiver → List (Timestamp × Op) → Receiver → List (Answer × List Event) → Prop
  | nil (r : Receiver) : Runs r [] r []
  | cons {r r' r'' : Receiver} {now : Timestamp} {op : Op} {answer : Answer} {events : List Event}
      {ops : List (Timestamp × Op)} {results : List (Answer × List Event)}
      (first : r.Steps now op r' answer events) (later : Runs r' ops r'' results) :
      Runs r ((now, op) :: ops) r'' ((answer, events) :: results)

theorem tick_eq_tickIn (r : Receiver) (now : Timestamp) :
    r.tick now = r.tickIn now r.sessions.handles := by
  rw [tick, tickIn, Sessions.onAll_eq]

theorem steps_step (r : Receiver) (now : Timestamp) (op : Op) :
    r.Steps now op (r.step now op).1 (r.step now op).2.1 (r.step now op).2.2 := by
  by_cases hop : op = .tick
  · subst hop
    have htick : r.Steps now .tick (r.tick now).1 .nothing (r.tick now).2 := by
      rw [tick_eq_tickIn]
      exact .tick _ (List.Perm.refl _)
    exact htick
  · exact .other hop

/-- A run that visits the windows by handle is one of the possible runs. -/
theorem runs_run (r : Receiver) (ops : List (Timestamp × Op)) :
    r.Runs ops (r.run ops).1 (r.run ops).2 := by
  induction ops generalizing r with
  | nil => exact .nil r
  | cons entry ops ih => exact .cons (r.steps_step entry.1 entry.2) (ih _)

/-! ### What a step does for each session -/

/-- A step serves the sessions that it concerns and leaves the others as they are. -/
structure Serves (r : Receiver) (now : Timestamp) (op : Op) (r' : Receiver) (answer : Answer)
    (events : List Event) : Prop where
  orderly : r'.sessions.Orderly
  windows : r'.sessions.config = r.sessions.config
  config : r'.config = r.config
  decoder : r'.decoder = r.decoder
  concerned : ∀ t, op.concerns t →
    ⟨r'.sessions.get? t, answer, eventsOf t events⟩ =
      serve r.sessions.config r.config r.decoder t now (r.sessions.get? t) op
  others : ∀ t, op.concerns t = false →
    r'.sessions.get? t = r.sessions.get? t ∧ eventsOf t events = []

theorem Op.concerns_iff {tsi : Tsi} (about : op.tsi? = some tsi) : op.concerns t ↔ t = tsi := by
  rw [concerns, about]
  simp [eq_comm]

/-- A packet or a report is given to the window with one call, and what follows is `arrive`. -/
theorem Op.brings?_spec {call : Window.Op} (h : op.brings? now = some call) :
    ∃ tsi, op.tsi? = some tsi ∧ op.ends = false ∧ (∀ w : Window, w.caused [call] = []) ∧
      ∀ r : Receiver, r.step now op = ((r.arrive tsi now (·.receive call)).1,
        .receipt (r.arrive tsi now (·.receive call)).2.1,
        (r.arrive tsi now (·.receive call)).2.2) := by
  cases op with
  | data p source =>
    cases source <;> cases h <;> exact ⟨p.tsi, rfl, rfl, fun _ => rfl, fun _ => rfl⟩
  | parity p =>
    cases h
    exact ⟨p.tsi, rfl, rfl, fun _ => rfl, fun _ => rfl⟩
  | status tsi =>
    cases h
    exact ⟨tsi, rfl, rfl, fun _ => rfl, fun _ => rfl⟩
  | ncf | tick | remove | shutdownAll => cases h

/-- An operation on one session serves that session. -/
theorem Serves.of_shows {tsi : Tsi} {w? : Option Window} {answer : Answer} {events : List Event}
    (about : op.tsi? = some tsi)
    (shows' : r.sessions.Shows r'.sessions (Function.update r.sessions.get? tsi w?))
    (config : r'.config = r.config) (decoder : r'.decoder = r.decoder)
    (own : ∀ event ∈ events, event.tsi = tsi)
    (served : ⟨w?, answer, events⟩ =
      serve r.sessions.config r.config r.decoder tsi now (r.sessions.get? tsi) op) :
    r.Serves now op r' answer events where
  orderly := shows'.orderly
  windows := shows'.config
  config := config
  decoder := decoder
  concerned := by
    intro t concerned
    obtain rfl := (Op.concerns_iff about).1 concerned
    rw [shows'.get?, Function.update_self, eventsOf_self own, served]
  others := by
    intro t other
    have hne : t ≠ tsi := by
      rintro rfl
      rw [(Op.concerns_iff about).2 rfl] at other
      cases other
    rw [shows'.get?, Function.update_of_ne hne]
    exact ⟨rfl, eventsOf_other own hne⟩

theorem serves_arrival (ho : r.sessions.Orderly) {call : Window.Op}
    (h : op.brings? now = some call) :
    r.Serves now op (r.step now op).1 (r.step now op).2.1 (r.step now op).2.2 := by
  obtain ⟨tsi, about, goesOn, quiet, hstep⟩ := Op.brings?_spec h
  have hsettle : ∀ w, Window.IsMade r.sessions.config w →
      Window.settle r.config.1.maxRead r.decoder now (w.receive call) = _ :=
    fun w made => Window.arrive_eq made (quiet w) r.decoder now
  obtain ⟨hshows, hanswer⟩ := ho.shows_onSession tsi fun w made =>
    ⟨_, congrArg Prod.fst (hsettle w made)⟩
  obtain ⟨made, htsi⟩ := ho.made_getD tsi
  rw [hsettle _ made] at hshows hanswer
  have own : ∀ event ∈ (r.arrive tsi now (·.receive call)).2.2, event.tsi = tsi := by
    intro event hevent
    rw [← htsi]
    exact Window.tsi_of_mem_caused (hanswer ▸ hevent)
  rw [hstep]
  refine .of_shows about hshows rfl rfl own ?_
  rw [serve_of_brings h goesOn]
  simp only [arrive, hanswer]

theorem serves_ncf (ho : r.sessions.Orderly) (tsi : Tsi) (s : SeqNum) (sent : Timestamp) :
    r.Serves now (.ncf tsi s sent) (r.step now (.ncf tsi s sent)).1
      (r.step now (.ncf tsi s sent)).2.1 (r.step now (.ncf tsi s sent)).2.2 := by
  have history : ∀ w : Window, Window.IsMade r.sessions.config w →
      ∃ ops, (w.confirmNak s sent now).1 = w.run ops := fun w _ => ⟨[.confirmNak s sent now], rfl⟩
  obtain ⟨hshows, hanswer⟩ := ho.shows_onRegistered tsi history
  refine .of_shows rfl hshows rfl rfl (fun event hevent => absurd hevent List.not_mem_nil) ?_
  have hreceipt : (r.step now (.ncf tsi s sent)).2.1 = .receipt (((r.sessions.get? tsi).map fun w =>
      (w.confirmNak s sent now).2).getD (.of .unknown)) := by
    rw [← hanswer]
    rfl
  rw [hreceipt]
  cases r.sessions.get? tsi <;> rfl

theorem serves_remove (ho : r.sessions.Orderly) (tsi : Tsi) :
    r.Serves now (.remove tsi) (r.step now (.remove tsi)).1 (r.step now (.remove tsi)).2.1
      (r.step now (.remove tsi)).2.2 := by
  refine .of_shows rfl (ho.shows_remove tsi) rfl rfl
    (fun event hevent => absurd hevent List.not_mem_nil) ?_
  have hfound : (r.step now (.remove tsi)).2.1 = .removed (r.sessions.get? tsi).isSome := by
    change Answer.removed (r.sessions.remove tsi).2.isSome = _
    cases hfound : r.sessions.find? tsi with
    | some h =>
      obtain ⟨e, he, registered, rfl⟩ := ho.find?_eq_some_iff.1 hfound
      rw [Sessions.remove, hfound, ho.get?_of_entry he registered]
      rfl
    | none =>
      rw [Sessions.remove_of_unknown hfound, ho.get?_eq_none_iff.2 hfound]
      rfl
  rw [hfound]
  cases r.sessions.get? tsi <;> rfl

theorem serves_shutdownAll (ho : r.sessions.Orderly) :
    r.Serves now .shutdownAll (r.step now .shutdownAll).1 (r.step now .shutdownAll).2.1
      (r.step now .shutdownAll).2.2 where
  orderly := ho.shutdownAll
  windows := rfl
  config := rfl
  decoder := rfl
  concerned := by
    intro t _
    have hget : (r.step now .shutdownAll).1.sessions.get? t = none :=
      ho.shows_shutdownAll.get? t
    rw [hget]
    cases r.sessions.get? t <;> rfl
  others := nofun

theorem serves_tickIn (ho : r.sessions.Orderly) {order : List Nat}
    (all : order.Perm r.sessions.handles) :
    r.Serves now .tick (r.tickIn now order).1 .nothing (r.tickIn now order).2 := by
  obtain ⟨hshows, hevents⟩ := ho.shows_onEach
    (Window.minds_tick r.sessions.config r.config.1.maxRead now) all
  refine ⟨hshows.orderly, hshows.config, rfl, rfl, fun t _ => ?_, nofun⟩
  change Service.mk (Sessions.get? (Sessions.onEach _ order r.sessions).1 t) _
    (eventsOf t (Sessions.onEach _ order r.sessions).2) = _
  rw [hshows.get?, hevents]
  cases hw : r.sessions.get? t with
  | none => rfl
  | some w =>
    simp only [Option.map_some, Window.tick_eq (ho.made_of_get? hw).1]
    rfl

theorem Steps.serves {answer : Answer} {events : List Event} (ho : r.sessions.Orderly)
    (h : r.Steps now op r' answer events) : r.Serves now op r' answer events := by
  cases h with
  | tick order all => exact serves_tickIn ho all
  | other other =>
    cases op with
    | data p source => cases source <;> exact serves_arrival ho rfl
    | parity p => exact serves_arrival ho rfl
    | status tsi trail lead size shift => exact serves_arrival ho rfl
    | ncf tsi s sent => exact serves_ncf ho tsi s sent
    | remove tsi => exact serves_remove ho tsi
    | shutdownAll => exact serves_shutdownAll ho
    | tick => exact absurd rfl other

/-! ### What a run does for each session -/

/-- What the operations that concern session `t` answered and caused for it. -/
def seenBy (t : Tsi) (ops : List (Timestamp × Op)) (results : List (Answer × List Event)) :
    List (Answer × List Event) :=
  ((ops.zip results).filter fun entry => entry.1.2.concerns t).map fun entry =>
    (entry.2.1, eventsOf t entry.2.2)

/-- The events of session `t`, in order. -/
def causedFor (t : Tsi) (results : List (Answer × List Event)) : List Event :=
  eventsOf t (results.flatMap Prod.snd)

theorem seenBy_cons (t : Tsi) (now : Timestamp) (op : Op) (ops : List (Timestamp × Op))
    (answer : Answer) (events : List Event) (results : List (Answer × List Event)) :
    seenBy t ((now, op) :: ops) ((answer, events) :: results) =
      if op.concerns t then (answer, eventsOf t events) :: seenBy t ops results
      else seenBy t ops results := by
  rw [seenBy, List.zip_cons_cons, List.filter_cons]
  split <;> rfl

/-- A run does for a session what the operations that concern it do. -/
theorem Runs.serves {ops : List (Timestamp × Op)} {results : List (Answer × List Event)}
    (ho : r.sessions.Orderly) (h : r.Runs ops r' results) (t : Tsi) :
    let served := serveAll r.sessions.config r.config r.decoder t (r.sessions.get? t)
      (ops.filter (·.2.concerns t))
    r'.sessions.get? t = served.1 ∧ seenBy t ops results = served.2 ∧
      causedFor t results = served.2.flatMap Prod.snd := by
  induction h with
  | nil r => exact ⟨rfl, rfl, rfl⟩
  | @cons r r' r'' now op answer events ops results first later ih =>
    have hserves := first.serves ho
    have ih := ih hserves.orderly
    rw [hserves.windows, hserves.config, hserves.decoder] at ih
    have hcaused : causedFor t ((answer, events) :: results) =
        eventsOf t events ++ causedFor t results := eventsOf_append ..
    rw [seenBy_cons, hcaused, List.filter_cons]
    cases concerned : op.concerns t with
    | true =>
      have hserved := hserves.concerned t concerned
      simp only [if_true, serveAll, ← hserved]
      exact ⟨ih.1, congrArg _ ih.2.1, congrArg _ ih.2.2⟩
    | false =>
      obtain ⟨hget, hnone⟩ := hserves.others t concerned
      rw [hget] at ih
      rw [hnone]
      exact ih

/-- Whatever other sessions do and in whatever order ticks visit the windows, a session sees the
same as in a run from which the operations on other sessions are removed: the same answers to its
own operations with the same events, the same events in the same order altogether, and it ends with
the same window. -/
theorem sessions_isolated (windows : ValidConfig) (config : ValidReceiverConfig)
    (decoder : Option Decoder) (t : Tsi) (ops : List (Timestamp × Op)) {r r' : Receiver}
    {results results' : List (Answer × List Event)}
    (whole : (create windows config decoder).Runs ops r results)
    (alone : (create windows config decoder).Runs (ops.filter (·.2.concerns t)) r' results') :
    seenBy t ops results = seenBy t (ops.filter (·.2.concerns t)) results' ∧
      causedFor t results = causedFor t results' ∧
      r.sessions.get? t = r'.sessions.get? t := by
  have ho : (create windows config decoder).sessions.Orderly := Sessions.orderly_empty windows
  obtain ⟨hwindow, hseen, hcaused⟩ := whole.serves ho t
  obtain ⟨hwindow', hseen', hcaused'⟩ := alone.serves ho t
  rw [List.filter_filter] at hwindow' hseen' hcaused'
  simp only [Bool.and_self] at hwindow' hseen' hcaused'
  exact ⟨hseen.trans hseen'.symm, hcaused.trans hcaused'.symm, hwindow.trans hwindow'.symm⟩

/-- Reads of at most two messages at once. -/
def smallReceiver : ValidReceiverConfig := ⟨⟨⟨10⟩, 2⟩, by decide⟩

/-- Another session beside the small window's. -/
def otherTsi : Tsi := ⟨#v[6, 5, 4, 3, 2, 1], 7⟩

/-- Two sessions that miss a packet each; one of them ends before the tick and begins again. -/
def mixedOps : List (Timestamp × Op) :=
  [(0, .data ⟨Window.smallTsi, 5, none, ⟨#[1]⟩⟩ none), (0, .data ⟨otherTsi, 8, none, ⟨#[2]⟩⟩ none),
    (1, .data ⟨Window.smallTsi, 7, none, ⟨#[3]⟩⟩ none), (1, .data ⟨otherTsi, 9, none, ⟨#[4]⟩⟩ none),
    (2, .remove otherTsi), (3, .status otherTsi 0 9 0 0), (20, .tick),
    (21, .data ⟨Window.smallTsi, 6, none, ⟨#[5]⟩⟩ (some .retransmission))]

theorem sessions_isolated_small :
    let r := create Window.smallConfig smallReceiver none
    (causedFor Window.smallTsi (r.run mixedOps).2).length = 5 ∧
      causedFor Window.smallTsi (r.run mixedOps).2 = causedFor Window.smallTsi
        (r.run (mixedOps.filter (·.2.concerns Window.smallTsi))).2 :=
  ⟨by decide +kernel, (sessions_isolated Window.smallConfig smallReceiver none Window.smallTsi
    mixedOps (runs_run _ _) (runs_run _ _)).2.1⟩

end Receiver

end ReliableMulticast
