import Mathlib.Data.List.DropRight
import ReliableMulticast.Proofs.Isolation
import ReliableMulticast.Proofs.Tallying

/-!
# Nothing is left behind

A receiver leaves a window only when there is nothing left to read, and what it told of a window is
what the window handed out and counted (`drained_and_accounted`). An operation on a session is some
calls on its window, and these leave nothing to read (`Op.leavesNothing`). So they never saturate
the count of what waits to be told, and what they tell adds up (`Balanced`). A session may end and
begin again with another window: the account is of what happened since it last ended (`sinceEnd`),
for which a run does what `serveAll` does (`Follows`).
-/

namespace ReliableMulticast

namespace Window

variable {w : Window} {config : ValidConfig} {maxRead : Nat}

theorem IsMade.hasPending_drainCalls (h : IsMade config w) (pos : 0 < maxRead) :
    (w.run (drainCalls maxRead (w.slots.size + 1) w)).hasPending = false := by
  have hdrain : w.drain maxRead = _ := drainRounds_eq h
  have idle := (h.drains_drain pos).2
  rwa [hdrain] at idle

/-- The calls of an arrival leave nothing to read. -/
theorem IsMade.hasPending_arriveCalls (h : IsMade config w) (pos : 0 < maxRead)
    (decoder : Option Decoder) (now : Timestamp) (call : Op) :
    (w.run (w.arriveCalls maxRead decoder now call)).hasPending = false := by
  have hstep : IsMade config (w.step call).1 := h.run [call]
  have hsplit : w.run (w.arriveCalls maxRead decoder now call) = _ :=
    run_append (w.step call).1 (repairCalls (w.receive call).2.repairable decoder now) _
  rw [hsplit]
  exact (hstep.run _).hasPending_drainCalls pos

/-- So do the calls of a tick. -/
theorem IsMade.hasPending_tickCalls (h : IsMade config w) (pos : 0 < maxRead) (now : Timestamp) :
    (w.run (w.tickCalls maxRead now)).hasPending = false :=
  (h.run [.sweep now]).hasPending_drainCalls pos

/-- A confirmation gives nothing to read. -/
theorem hasPending_confirmNak (w : Window) (s : SeqNum) (sent now : Timestamp) :
    (w.step (.confirmNak s sent now)).1.hasPending = w.hasPending := by
  cases live : w.isGone with
  | true => rw [step_of_gone live rfl]
  | false =>
    have hstep : (w.step (.confirmNak s sent now)).1 = (w.acceptNcf s sent now).1 := by
      simp only [step, confirmNak, whileLive_of_live live]
      rfl
    rw [hstep]
    rcases w.acceptNcf_cases s sent now with ⟨he, -⟩ | ⟨slot, timer, -, -, -, -, he⟩ <;> rw [he]
    rfl

end Window

namespace Receiver

variable {windows : ValidConfig} {config : ValidReceiverConfig} {decoder : Option Decoder}
variable {r r' : Receiver} {t : Tsi} {now : Timestamp} {op : Op} {w : Window} {w? : Option Window}
variable {calls : List Window.Op} {events : List Event} {ops : List (Timestamp × Op)}

/-! ### What the calls of an operation leave -/

/-- Calls on a window after which it is still at work and has nothing to read, and whose losses could be
counted. -/
structure LeavesNothing (w : Window) (calls : List Window.Op) : Prop where
  stays : ∀ call ∈ calls, call ≠ .shutdown
  idle : (w.run calls).hasPending = false
  countable : w.Countable calls

theorem LeavesNothing.arriveCalls (made : Window.IsMade windows w) (h : w.Running)
    (idle : w.hasPending = false) (config : ValidReceiverConfig) (decoder : Option Decoder)
    (now : Timestamp) {call : Window.Op} (part : call.isPart) (stays : call ≠ .shutdown) :
    LeavesNothing w (w.arriveCalls config.1.maxRead decoder now call) where
  stays := by
    intro other hmem
    rcases List.mem_cons.1 hmem with rfl | hmem
    · exact stays
    · exact (List.mem_append.1 hmem).elim Window.ne_shutdown_of_mem_repairCalls
        Window.ne_shutdown_of_mem_drainCalls
  idle := made.hasPending_arriveCalls (Nat.pos_of_ne_zero config.2.maxRead_pos) decoder now call
  countable := h.countable_arriveCalls idle config.1.maxRead decoder now part stays

theorem LeavesNothing.tickCalls (made : Window.IsMade windows w) (h : w.Running)
    (idle : w.hasPending = false) (config : ValidReceiverConfig) (now : Timestamp) :
    LeavesNothing w (w.tickCalls config.1.maxRead now) where
  stays := by
    intro other hmem
    rcases List.mem_cons.1 hmem with rfl | hmem
    · simp
    · exact Window.ne_shutdown_of_mem_drainCalls hmem
  idle := made.hasPending_tickCalls (Nat.pos_of_ne_zero config.2.maxRead_pos) now
  countable := h.countable_tickCalls idle config.1.maxRead now

/-- If nothing was left to read, an operation leaves nothing to read, unless it ends the session. -/
theorem Op.leavesNothing (made : Window.IsMade windows w) (h : w.Running)
    (idle : w.hasPending = false) (goesOn : op.ends = false) (config : ValidReceiverConfig)
    (decoder : Option Decoder) (now : Timestamp) :
    LeavesNothing w (op.calls config decoder now w) := by
  have arrives : ∀ call : Window.Op, call.isPart → call ≠ .shutdown →
      LeavesNothing w (w.arriveCalls config.1.maxRead decoder now call) :=
    fun _ part stays => .arriveCalls made h idle config decoder now part stays
  cases op with
  | data p source => cases source <;> exact arrives _ rfl (by simp)
  | parity p => exact arrives _ rfl (by simp)
  | status tsi trail lead size shift => exact arrives _ rfl (by simp)
  | ncf tsi s sent =>
    refine ⟨fun call hcall => ?_, (w.hasPending_confirmNak s sent now).trans idle,
      h.countable_cons (h.told_of_idle idle) rfl (.nil _)⟩
    rw [List.mem_singleton.1 hcall]
    simp
  | tick => exact .tickCalls made h idle config now
  | remove | shutdownAll => cases goesOn

/-! ### The account of one session -/

section

variable (windows : ValidConfig) (config : ValidReceiverConfig) (decoder : Option Decoder)

/-- The calls that an operation makes for session `t`, if the session has this window. -/
def made (t : Tsi) (now : Timestamp) (w? : Option Window) (op : Op) : List Window.Op :=
  ((meets windows t now w? op).map fun w => op.calls config decoder now w).getD []

/-- The calls that operations make for session `t`, one after the other. -/
def madeAll (t : Tsi) : Option Window → List (Timestamp × Op) → List Window.Op
  | _, [] => []
  | w?, (now, op) :: rest =>
    made windows config decoder t now w? op ++
      madeAll t (serve windows config decoder t now w? op).window rest

end

theorem meets_cases (windows : ValidConfig) (t : Tsi) (now : Timestamp) (w? : Option Window)
    (op : Op) :
    meets windows t now w? op = none ∧ w? = none ∨
      meets windows t now w? op = some (w?.getD (.create t windows)) := by
  unfold meets
  split
  · exact .inr rfl
  · cases w? with
    | none => exact .inl ⟨rfl, rfl⟩
    | some w => exact .inr rfl

/-- The calls led to this window of session `t` with nothing left to read, all losses were counted on the
way, and these are the events that they caused. -/
structure Balanced (windows : ValidConfig) (t : Tsi) (w? : Option Window)
    (calls : List Window.Op) (events : List Event) : Prop where
  window : w?.getD (.create t windows) = (Window.create t windows).run calls
  running : ((Window.create t windows).run calls).Running
  idle : ((Window.create t windows).run calls).hasPending = false
  countable : (Window.create t windows).Countable calls
  events : events = (Window.create t windows).caused calls

theorem balanced_none (windows : ValidConfig) (t : Tsi) : Balanced windows t none [] [] where
  window := rfl
  running := Window.running_create t windows
  idle := rfl
  countable := .nil _
  events := rfl

theorem Balanced.append (h : Balanced windows t w? calls events) {more : List Window.Op}
    (hm : LeavesNothing ((Window.create t windows).run calls) more) :
    Balanced windows t (some (((Window.create t windows).run calls).run more)) (calls ++ more)
      (events ++ ((Window.create t windows).run calls).caused more) where
  window := (Window.run_append ..).symm
  running := by
    rw [Window.run_append]
    exact h.running.run hm.stays
  idle := by
    rw [Window.run_append]
    exact hm.idle
  countable := h.countable.append hm.countable
  events := by
    rw [h.events, (Window.IsMade.create t windows).caused_append]

/-- An operation keeps the account balanced, unless it ends the session. -/
theorem Balanced.serve (h : Balanced windows t w? calls events) (goesOn : op.ends = false)
    (config : ValidReceiverConfig) (decoder : Option Decoder) (now : Timestamp) :
    Balanced windows t (serve windows config decoder t now w? op).window
      (calls ++ made windows config decoder t now w? op)
      (events ++ (serve windows config decoder t now w? op).events) := by
  unfold Receiver.serve made
  rw [goesOn]
  rcases meets_cases windows t now w? op with ⟨hmeets, rfl⟩ | hmeets <;> rw [hmeets]
  · simpa using h
  · rw [h.window]
    exact h.append (Op.leavesNothing ((Window.IsMade.create t windows).run calls) h.running h.idle
      goesOn config decoder now)

theorem Balanced.serveAll (h : Balanced windows t w? calls events) (config : ValidReceiverConfig)
    (decoder : Option Decoder) (goesOn : ∀ entry ∈ ops, entry.2.ends = false) :
    Balanced windows t (serveAll windows config decoder t w? ops).1
      (calls ++ madeAll windows config decoder t w? ops)
      (events ++ (serveAll windows config decoder t w? ops).2.flatMap Prod.snd) := by
  induction ops generalizing w? calls events with
  | nil => simpa [Receiver.serveAll, madeAll] using h
  | cons entry ops ih =>
    obtain ⟨now, op⟩ := entry
    have first := h.serve (goesOn _ (List.mem_cons_self ..)) config decoder now
    have later := ih first fun x hx => goesOn x (List.mem_cons_of_mem _ hx)
    rwa [List.append_assoc, List.append_assoc] at later

/-- A session has a window once it was brought something. -/
theorem isSome_serveAll (goesOn : ∀ entry ∈ ops, entry.2.ends = false) (w? : Option Window) :
    (serveAll windows config decoder t w? ops).1.isSome =
      (w?.isSome || ops.any fun entry => (entry.2.brings? entry.1).isSome) := by
  induction ops generalizing w? with
  | nil => exact (Bool.or_false _).symm
  | cons entry ops ih =>
    obtain ⟨now, op⟩ := entry
    have hfirst : (serve windows config decoder t now w? op).window.isSome =
        (w?.isSome || (op.brings? now).isSome) := by
      have hends : op.ends = false := goesOn _ (List.mem_cons_self ..)
      simp only [Receiver.serve, meets, hends]
      cases op.brings? now <;> cases w? <;> rfl
    have hlater := ih (fun x hx => goesOn x (List.mem_cons_of_mem _ hx))
      (serve windows config decoder t now w? op).window
    rw [hfirst, Bool.or_assoc] at hlater
    exact hlater

/-- What the calls told is what the window handed out and counted. -/
theorem Balanced.accounts (h : Balanced windows t (some w) calls events) :
    w = (Window.create t windows).run calls ∧ w.hasPending = false ∧
      messagesIn events = (Window.create t windows).delivered calls ∧
      (messagesIn events).length = w.counters.messages ∧
      lossesIn events + w.lostAhead = w.counters.losses := by
  obtain rfl : w = _ := h.window
  have hmessages := Window.messages_eq_delivered t windows h.running.live
  have hlosses := Window.losses_eq_told t windows h.running.live h.countable.unsaturated
  rw [h.running.told_of_idle h.idle, Nat.add_zero] at hlosses
  rw [h.events, Window.messagesIn_caused, Window.lossesIn_caused h.countable.fits]
  exact ⟨rfl, h.idle, rfl, hmessages.symm, hlosses.symm⟩

/-! ### Runs -/

/-- The operations of a run, with what they answered and caused. -/
abbrev Log : Type := List ((Timestamp × Op) × Answer × List Event)

/-- What happened since session `t` last ended. -/
def sinceEnd (t : Tsi) (log : Log) : Log :=
  log.rtakeWhile fun entry => !(entry.1.2.concerns t && entry.1.2.ends)

/-- The operations that concern session `t`. -/
def opsOn (t : Tsi) (log : Log) : List (Timestamp × Op) :=
  (log.map Prod.fst).filter (·.2.concerns t)

theorem goesOn_sinceEnd (t : Tsi) (log : Log) :
    ∀ entry ∈ opsOn t (sinceEnd t log), entry.2.ends = false := by
  intro entry hentry
  obtain ⟨hmem, concerned⟩ := List.mem_filter.1 hentry
  obtain ⟨whole, hwhole, rfl⟩ := List.mem_map.1 hmem
  have hnot := List.mem_rtakeWhile_imp hwhole
  simpa [concerned] using hnot

theorem sinceEnd_concat_of_ends (log : Log) {entry : (Timestamp × Op) × Answer × List Event}
    (concerned : entry.1.2.concerns t) (ends : entry.1.2.ends) :
    sinceEnd t (log ++ [entry]) = [] :=
  List.rtakeWhile_concat_neg _ _ _ (by simp [concerned, ends])

theorem sinceEnd_concat_of_goesOn (log : Log) {entry : (Timestamp × Op) × Answer × List Event}
    (goesOn : (entry.1.2.concerns t && entry.1.2.ends) = false) :
    sinceEnd t (log ++ [entry]) = sinceEnd t log ++ [entry] :=
  List.rtakeWhile_concat_pos _ _ _ (by rw [goesOn]; rfl)

theorem opsOn_concat (t : Tsi) (log : Log) (entry : (Timestamp × Op) × Answer × List Event) :
    opsOn t (log ++ [entry]) =
      opsOn t log ++ if entry.1.2.concerns t then [entry.1] else [] := by
  rw [opsOn, List.map_append, List.filter_append, ← opsOn, List.map_singleton,
    List.filter_singleton, Bool.cond_eq_ite]

theorem causedFor_concat (t : Tsi) (log : Log) (entry : (Timestamp × Op) × Answer × List Event) :
    causedFor t ((log ++ [entry]).map Prod.snd) =
      causedFor t (log.map Prod.snd) ++ eventsOf t entry.2.2 := by
  simp [causedFor, eventsOf_append]

theorem serveAll_concat (w? : Option Window) (ops : List (Timestamp × Op)) (now : Timestamp)
    (op : Op) :
    let served := serveAll windows config decoder t w? ops
    let service := serve windows config decoder t now served.1 op
    serveAll windows config decoder t w? (ops ++ [(now, op)]) =
      (service.window, served.2 ++ [(service.answer, service.events)]) := by
  induction ops generalizing w? with
  | nil => rfl
  | cons entry ops ih =>
    simp only [List.cons_append, serveAll, ih]

/-- The operations of a log make this window of session `t`, and cause what was told. -/
structure Agrees (windows : ValidConfig) (config : ValidReceiverConfig) (decoder : Option Decoder)
    (t : Tsi) (w? : Option Window) (log : Log) : Prop where
  window : w? = (serveAll windows config decoder t none (opsOn t log)).1
  events : causedFor t (log.map Prod.snd) =
    (serveAll windows config decoder t none (opsOn t log)).2.flatMap Prod.snd

theorem Agrees.other {log : Log} (h : Agrees windows config decoder t w? log)
    {entry : (Timestamp × Op) × Answer × List Event} (other : entry.1.2.concerns t = false)
    (quiet : eventsOf t entry.2.2 = []) : Agrees windows config decoder t w? (log ++ [entry]) := by
  have hops : opsOn t (log ++ [entry]) = opsOn t log := by
    rw [opsOn_concat, other, if_neg Bool.false_ne_true, List.append_nil]
  constructor
  · rw [hops, ← h.window]
  · rw [hops, causedFor_concat, quiet, List.append_nil, h.events]

theorem Agrees.serve {log : Log} (h : Agrees windows config decoder t w? log) {answer : Answer}
    {later : Option Window} (concerned : op.concerns t)
    (served : ⟨later, answer, eventsOf t events⟩ =
      serve windows config decoder t now w? op) :
    Agrees windows config decoder t later (log ++ [((now, op), answer, events)]) := by
  have hops : opsOn t (log ++ [((now, op), answer, events)]) = opsOn t log ++ [(now, op)] := by
    rw [opsOn_concat, if_pos concerned]
  constructor
  · rw [hops, serveAll_concat, ← h.window, ← served]
  · rw [hops, serveAll_concat, ← h.window, ← served, causedFor_concat, h.events,
      List.flatMap_append, List.flatMap_singleton]

/-- The receiver has for each session the window that was made since the session last ended, and
told what was caused since then. -/
structure Follows (windows : ValidConfig) (config : ValidReceiverConfig) (decoder : Option Decoder)
    (r : Receiver) (log : Log) : Prop where
  session : ∀ t, Agrees windows config decoder t (r.sessions.get? t) (sinceEnd t log)
  orderly : r.sessions.Orderly
  windows : r.sessions.config = windows
  config : r.config = config
  decoder : r.decoder = decoder

theorem follows_create (windows : ValidConfig) (config : ValidReceiverConfig)
    (decoder : Option Decoder) :
    Follows windows config decoder (create windows config decoder) [] :=
  ⟨fun _ => ⟨rfl, rfl⟩, Sessions.orderly_empty windows, rfl, rfl, rfl⟩

theorem Follows.step {log : Log} {answer : Answer} (h : Follows windows config decoder r log)
    (hs : r.Steps now op r' answer events) :
    Follows windows config decoder r' (log ++ [((now, op), answer, events)]) := by
  have hserves := hs.serves h.orderly
  refine ⟨fun t => ?_, hserves.orderly, hserves.windows.trans h.windows,
    hserves.config.trans h.config, hserves.decoder.trans h.decoder⟩
  cases concerned : op.concerns t with
  | false =>
    obtain ⟨hsame, quiet⟩ := hserves.others t concerned
    rw [sinceEnd_concat_of_goesOn log (by simp [concerned]), hsame]
    exact (h.session t).other concerned quiet
  | true =>
    have hserved := hserves.concerned t concerned
    rw [h.windows, h.config, h.decoder] at hserved
    cases hends : op.ends with
    | true =>
      have hgone := congrArg Service.window hserved
      rw [Receiver.serve, hends, if_pos rfl] at hgone
      rw [sinceEnd_concat_of_ends log concerned hends]
      exact ⟨hgone, rfl⟩
    | false =>
      rw [sinceEnd_concat_of_goesOn log (by simp [hends])]
      exact (h.session t).serve concerned hserved

theorem Follows.run {log : Log} {results : List (Answer × List Event)}
    (h : Follows windows config decoder r log) (hr : r.Runs ops r' results) :
    Follows windows config decoder r' (log ++ ops.zip results) := by
  induction hr generalizing log with
  | nil => simpa using h
  | cons first _ ih =>
    have later := ih (h.step first)
    rwa [List.append_assoc] at later

/-- Every drain of a window ends, with nothing left to read. Whatever happens to a receiver, the
sessions with a window are those that were brought something since they last ended. Nothing is left
to read from such a window, the messages told since then are those that the reads of the window
handed out, each once and in order, they are as many as it counted, and the losses told, with those
that the reader has not come to, are all that it counted. -/
theorem drained_and_accounted (windows : ValidConfig) (config : ValidReceiverConfig)
    (decoder : Option Decoder) {ops : List (Timestamp × Op)} {r : Receiver}
    {results : List (Answer × List Event)}
    (whole : (create windows config decoder).Runs ops r results) :
    (∀ t history, let w := (Window.create t windows).run history
      w.Drains config.1.maxRead (w.drain config.1.maxRead).1 (w.drain config.1.maxRead).2 ∧
        (∀ w' events, w.Drains config.1.maxRead w' events →
          (w', events) = w.drain config.1.maxRead) ∧
        (w.drain config.1.maxRead).1.hasPending = false) ∧
      ∀ t, let since := sinceEnd t (ops.zip results)
        let calls := madeAll windows config decoder t none (opsOn t since)
        let events := causedFor t (since.map Prod.snd)
        (r.sessions.get? t).isSome =
            (opsOn t since).any (fun entry => (entry.2.brings? entry.1).isSome) ∧
          ∀ w, r.sessions.get? t = some w →
            w = (Window.create t windows).run calls ∧ w.hasPending = false ∧
              messagesIn events = (Window.create t windows).delivered calls ∧
              (messagesIn events).length = w.counters.messages ∧
              lossesIn events + w.lostAhead = w.counters.losses := by
  refine ⟨fun t history => ?_, fun t => ?_⟩
  · intro w
    have made : Window.IsMade windows w := (Window.IsMade.create t windows).run history
    obtain ⟨drains, idle⟩ := made.drains_drain (Nat.pos_of_ne_zero config.2.maxRead_pos)
    refine ⟨drains, fun w' events h => ?_, idle⟩
    obtain ⟨rfl, rfl⟩ := drains.unique h
    rfl
  · have hfollows := (follows_create windows config decoder).run whole
    rw [List.nil_append] at hfollows
    have hagrees := hfollows.session t
    have goesOn := goesOn_sinceEnd t (ops.zip results)
    have hbalanced := (balanced_none windows t).serveAll config decoder goesOn
    rw [← hagrees.window, ← hagrees.events] at hbalanced
    refine ⟨by rw [hagrees.window, isSome_serveAll goesOn]; rfl, fun w hw => ?_⟩
    rw [hw] at hbalanced
    exact hbalanced.accounts

/-- A session that ended and began again. It misses three packets for which there is no room any
more, and then gives two up, while it still waits for the one before them. -/
def waitingOps : List (Timestamp × Op) :=
  [(0, .data ⟨Window.smallTsi, 5, none, ⟨#[1]⟩⟩ none), (1, .remove Window.smallTsi),
    (2, .data ⟨Window.smallTsi, 5, none, ⟨#[1]⟩⟩ none),
    (2, .data ⟨Window.smallTsi, 12, none, ⟨#[2]⟩⟩ none),
    (2, .data ⟨otherTsi, 8, none, ⟨#[3]⟩⟩ none),
    (13, .tick), (24, .tick), (30, .ncf Window.smallTsi 9 30), (35, .tick)]

theorem drained_and_accounted_small :
    let run := (create Window.smallConfig smallReceiver none).run waitingOps
    let events := causedFor Window.smallTsi
      ((sinceEnd Window.smallTsi (waitingOps.zip run.2)).map Prod.snd)
    ∃ w, run.1.sessions.get? Window.smallTsi = some w ∧ w.hasPending = false ∧
      w.lostAhead = 2 ∧ w.counters.losses = 5 ∧ lossesIn events = 3 ∧
      (messagesIn events).length = 1 := by
  intro run events
  obtain ⟨-, haccounts⟩ := (drained_and_accounted Window.smallConfig smallReceiver none
    (runs_run _ waitingOps)).2 Window.smallTsi
  obtain ⟨w, hw, hcounts⟩ := (Option.any_eq_true (fun w => w.lostAhead = 2 ∧
    w.counters.losses = 5 ∧ w.counters.messages = 1) (run.1.sessions.get? Window.smallTsi)).1
    (by decide +kernel)
  obtain ⟨hahead, hlosses, hmessages⟩ := of_decide_eq_true hcounts
  obtain ⟨-, idle, -, hlength, htold⟩ := haccounts w hw
  refine ⟨w, hw, idle, hahead, hlosses, ?_, hlength.trans hmessages⟩
  rw [hahead, hlosses] at htold
  exact Nat.add_right_cancel htold

end Receiver

end ReliableMulticast
