import ReliableMulticast.Receiver
import ReliableMulticast.Proofs.Pending
import ReliableMulticast.Proofs.Registry

/-!
# Serving a window

What a receiver does to a window is a history of calls on it, and what it tells the outside is what
those calls answered (`drainRounds_eq`, `settle_eq`, `tick_eq`). It reads and reclaims in a loop
(`Drains`), which ends because every read but one shortens the readable part, and which ends with
nothing pending (`drains_drain`).
-/

namespace ReliableMulticast.Window

variable {w w' : Window} {config : ValidConfig} {maxRead rounds count : Nat}

/-! ### Calls and their events -/

/-- The events that an answer is turned into. -/
def Answer.events (tsi : Tsi) : Answer → List Event
  | .naks requests => requests.map (.nak tsi)
  | .delivery d =>
    (if 0 < d.lost then [.loss tsi d.lost] else []) ++ d.messages.map (.message tsi)
  | _ => []

/-- The events of a history of calls. -/
def caused (w : Window) (calls : List Op) : List Event :=
  (w.record calls).flatMap fun entry => entry.2.events w.tsi

/-- The calls that drain a window in some rounds. -/
def drainCalls (maxRead : Nat) : Nat → Window → List Op
  | 0, _ => []
  | rounds + 1, w =>
    if !w.hasPending then []
    else
      let (w, delivery) := w.read maxRead
      if delivery.outcome ≠ .ok ∨ delivery.isEmpty then [.read maxRead]
      else .read maxRead :: .release :: drainCalls maxRead rounds w.release.1

/-- The calls that repair a group, if there is one and a decoder for it. -/
def repairCalls (group : Option Group) (decoder : Option Decoder) (now : Timestamp) : List Op :=
  match group, decoder with
  | some g, some decode => [.repair g decode now]
  | _, _ => []

/-- The calls that follow the arrival of a packet. -/
def settleCalls (maxRead : Nat) (decoder : Option Decoder) (now : Timestamp) (w : Window)
    (receipt : Receipt) : List Op :=
  let repairs := repairCalls receipt.repairable decoder now
  repairs ++ drainCalls maxRead ((w.run repairs).slots.size + 1) (w.run repairs)

/-- The receipt that an answer is. -/
def Answer.asReceipt : Answer → Receipt
  | .receipt r => r
  | _ => .of .unknown

/-- A call that brings the window something, with its receipt. -/
def receive (w : Window) (call : Op) : Window × Receipt :=
  ((w.step call).1, (w.step call).2.asReceipt)

/-- The calls of an arrival. -/
def arriveCalls (maxRead : Nat) (decoder : Option Decoder) (now : Timestamp) (w : Window)
    (call : Op) : List Op :=
  call :: settleCalls maxRead decoder now (w.receive call).1 (w.receive call).2

/-- The calls of a tick. -/
def tickCalls (maxRead : Nat) (now : Timestamp) (w : Window) : List Op :=
  .sweep now :: drainCalls maxRead ((w.sweep now).1.slots.size + 1) (w.sweep now).1

theorem IsMade.caused_append (h : IsMade config w) (calls more : List Op) :
    w.caused (calls ++ more) = w.caused calls ++ (w.run calls).caused more := by
  rw [caused, record_append, List.flatMap_append, caused, caused, h.tsi_run]

theorem tsi_of_mem_events {tsi : Tsi} {answer : Answer} {event : Event}
    (h : event ∈ answer.events tsi) : event.tsi = tsi := by
  cases answer with
  | naks requests =>
    obtain ⟨request, -, rfl⟩ := List.mem_map.1 h
    rfl
  | delivery d =>
    rcases List.mem_append.1 h with h | h
    · split at h
      · rw [List.mem_singleton.1 h]
        rfl
      · cases h
    · obtain ⟨m, -, rfl⟩ := List.mem_map.1 h
      rfl
  | receipt | released | repaired | nothing => cases h

/-- All events of a window are of its session. -/
theorem tsi_of_mem_caused {calls : List Op} {event : Event} (h : event ∈ w.caused calls) :
    event.tsi = w.tsi := by
  obtain ⟨entry, -, hevent⟩ := List.mem_flatMap.1 h
  exact tsi_of_mem_events hevent

theorem outcome_takeReady (room length : Nat) (w : Window) :
    (takeReady room length w).2.outcome = .ok := by
  have draws := draws_takeReady room length w
  generalize takeReady room length w = taken at draws ⊢
  induction draws with
  | done | cut => rfl
  | pass _ _ _ _ ih => exact ih
  | deliver _ _ _ _ _ ih => exact ih

theorem live_of_hasPending (pending : w.hasPending) : w.isGone = false := by
  simp only [hasPending, Bool.and_eq_true, Bool.not_eq_true'] at pending
  exact pending.1

/-- A read of a window that has something to read goes well. -/
theorem outcome_read (pending : w.hasPending) (count : Nat) : (w.read count).2.outcome = .ok := by
  rw [read, whileLive_of_live (live_of_hasPending pending)]
  exact outcome_takeReady ..

theorem isEmpty_iff {d : Delivery} : d.isEmpty ↔ d.messages = [] ∧ d.lost = 0 := by
  simp [Delivery.isEmpty]

theorem caused_read (h : IsMade config w) (count : Nat) :
    w.caused [.read count, .release] =
      (w.read count).1.release.1.deliveryEvents (w.read count).2 := by
  have hlater : (w.read count).1.release.1.tsi = w.tsi := h.tsi_run [.read count, .release]
  rw [deliveryEvents, hlater]
  simp [caused, record, Answer.events, step]

/-- Draining is reading and reclaiming, and its events are the answers of the reads. -/
theorem drainRounds_eq (h : IsMade config w) :
    drainRounds maxRead rounds w =
      (w.run (drainCalls maxRead rounds w), w.caused (drainCalls maxRead rounds w)) := by
  induction rounds generalizing w with
  | zero => rfl
  | succ rounds ih =>
    rw [drainRounds, drainCalls]
    split
    · rfl
    next pending =>
      have houtcome := outcome_read (by simpa using pending) maxRead
      simp only
      split
      next stop =>
        obtain ⟨hmessages, hlost⟩ := isEmpty_iff.1 (stop.resolve_left (not_not.2 houtcome))
        refine Prod.ext rfl ?_
        simp [caused, record, step, Answer.events, hmessages, hlost]
      next =>
        have later : drainRounds maxRead rounds (w.read maxRead).1.release.1 = _ :=
          ih (h.run [.read maxRead, .release])
        rw [later, ← caused_read h]
        exact Prod.ext rfl (h.caused_append [.read maxRead, .release] _).symm

theorem run_repairCalls (w : Window) (group : Option Group) (decoder : Option Decoder)
    (now : Timestamp) : w.run (repairCalls group decoder now) = w.tryRepair group decoder now := by
  cases group <;> cases decoder <;> rfl

theorem caused_repairCalls (w : Window) (group : Option Group) (decoder : Option Decoder)
    (now : Timestamp) : w.caused (repairCalls group decoder now) = [] := by
  cases group <;> cases decoder <;> rfl

/-- What follows the arrival of a packet is calls on the window. -/
theorem settle_eq (h : IsMade config w) (receipt : Receipt) (decoder : Option Decoder)
    (now : Timestamp) :
    settle maxRead decoder now (w, receipt) =
      (w.run (settleCalls maxRead decoder now w receipt), { receipt with repairable := none },
        w.caused (settleCalls maxRead decoder now w receipt)) := by
  rw [settle, drain, settleCalls, ← run_repairCalls, drainRounds_eq (h.run _), h.caused_append,
    caused_repairCalls, run_append]
  rfl

/-- An arrival is calls on the window; only those that follow the first cause events. -/
theorem arrive_eq (h : IsMade config w) {call : Op} (quiet : w.caused [call] = [])
    (decoder : Option Decoder) (now : Timestamp) :
    settle maxRead decoder now (w.receive call) =
      (w.run (arriveCalls maxRead decoder now w call),
        { (w.receive call).2 with repairable := none },
        w.caused (arriveCalls maxRead decoder now w call)) := by
  have hsettle : settle maxRead decoder now (w.receive call) = _ :=
    settle_eq (h.run [call]) (w.receive call).2 decoder now
  have hcaused := h.caused_append [call]
    (settleCalls maxRead decoder now (w.receive call).1 (w.receive call).2)
  rw [quiet, List.nil_append] at hcaused
  refine hsettle.trans (Prod.ext rfl (Prod.ext rfl ?_))
  exact hcaused.symm

/-- A tick is calls on the window. -/
theorem tick_eq (h : IsMade config w) (now : Timestamp) :
    w.tick maxRead now =
      (w.run (tickCalls maxRead now w), w.caused (tickCalls maxRead now w)) := by
  have hdrain : (w.sweep now).1.drain maxRead = _ := drainRounds_eq (h.run [.sweep now])
  have htsi : (w.run (tickCalls maxRead now w)).tsi = w.tsi := h.tsi_run _
  have hsweep : w.caused [.sweep now] = (w.sweep now).2.map (Event.nak w.tsi) := by
    simp [caused, record, step, Answer.events]
  have hcaused : w.caused (tickCalls maxRead now w) = _ := h.caused_append [.sweep now] _
  rw [hcaused, hsweep, ← htsi, tick]
  simp only [hdrain]
  rfl

/-! ### The loop -/

/-- Reading and reclaiming as long as there is something to read: `w` is left as `w'`, and these are
the events. -/
inductive Drains (maxRead : Nat) : Window → Window → List Event → Prop
  | idle {w : Window} (idle : w.hasPending = false) : Drains maxRead w w []
  | stop {w : Window} (pending : w.hasPending)
      (stop : (w.read maxRead).2.outcome ≠ .ok ∨ (w.read maxRead).2.isEmpty) :
      Drains maxRead w (w.read maxRead).1 []
  | round {w w' : Window} {events : List Event} (pending : w.hasPending)
      (ok : (w.read maxRead).2.outcome = .ok) (full : (w.read maxRead).2.isEmpty = false)
      (later : Drains maxRead (w.read maxRead).1.release.1 w' events) :
      Drains maxRead w w'
        ((w.read maxRead).1.release.1.deliveryEvents (w.read maxRead).2 ++ events)

/-- The loop has one outcome at most. -/
theorem Drains.unique {events more : List Event} (h : Drains maxRead w w' events)
    {w'' : Window} (h' : Drains maxRead w w'' more) : w'' = w' ∧ more = events := by
  induction h generalizing w'' more with
  | idle idle =>
    cases h' with
    | idle => exact ⟨rfl, rfl⟩
    | stop pending | round pending =>
      rw [idle] at pending
      cases pending
  | stop pending stop =>
    cases h' with
    | idle idle =>
      rw [idle] at pending
      cases pending
    | stop => exact ⟨rfl, rfl⟩
    | round _ ok full =>
      rw [full] at stop
      exact absurd stop (not_or.2 ⟨not_not.2 ok, Bool.false_ne_true⟩)
  | round pending ok full _ ih =>
    cases h' with
    | idle idle =>
      rw [idle] at pending
      cases pending
    | stop _ stop =>
      rw [full] at stop
      exact absurd stop (not_or.2 ⟨not_not.2 ok, Bool.false_ne_true⟩)
    | round _ _ _ later =>
      obtain ⟨rfl, rfl⟩ := ih later
      exact ⟨rfl, rfl⟩

theorem toRead_releaseUpTo (limit : Nat) (w : Window) :
    (releaseUpTo limit w).1.toRead = w.toRead := by
  have releases := releases_releaseUpTo limit w
  generalize (releaseUpTo limit w).1 = w' at releases ⊢
  induction releases with
  | done | hold => rfl
  | drop before unneeded later ih =>
    rw [ih, dropTrail_eq]
    rfl

/-- After a read there is no more to read than the window holds. -/
theorem Sound.toRead_readReady_le (h : w.Sound) (count : Nat) :
    (w.readReady count).1.toRead ≤ w.slots.size := by
  obtain ⟨_, hmoves, -⟩ := readReady_spec h count
  have hsound := hmoves.sound h
  have hlead := hsound.commitLead_le
  rw [size_readReady] at hlead
  rw [toRead, unreportedLosses_readReady, hsound.gap_readable]
  omega

/-- A round leaves the front at rest and less to read. -/
theorem round_spec (h : w.Sound) (live : w.isGone = false) (count : Nat) :
    (w.read count).1.release.1.Sound ∧ (w.read count).1.release.1.isGone = false ∧
      (w.read count).1.release.1.AtRest ∧
      (w.read count).1.release.1.toRead = (w.readReady count).1.toRead := by
  obtain ⟨_, hmoves, -⟩ := readReady_spec h count
  have hsound := hmoves.sound h
  have hlive := hmoves.keeps.isGone.trans live
  have hread : (w.read count).1 = (w.readReady count).1 :=
    congrArg Prod.fst (whileLive_of_live live)
  have hrelease : (w.readReady count).1.release.1 = (w.readReady count).1.releaseDelivered.1 :=
    congrArg Prod.fst (whileLive_of_live hlive)
  have hlater := moves_releaseUpTo
    ((w.readReady count).1.trail.gap (w.readReady count).1.commitTrail) hsound
  rw [hread, hrelease]
  exact ⟨hlater.sound hsound, hlater.keeps.isGone.trans hlive,
    (w.atRest_readReady count).releaseUpTo _ hsound, toRead_releaseUpTo ..⟩

/-- A read with room for a message that hands out nothing leaves nothing, as it went past all that
could be read. -/
theorem AtRest.idle_of_isEmpty (h : w.AtRest) (hs : w.Sound) (live : w.isGone = false)
    (pos : 0 < count) (empty : (w.read count).2.isEmpty) : (w.read count).1.hasPending = false := by
  have hread : w.read count = w.readReady count := whileLive_of_live live
  obtain ⟨_, hmoves, -⟩ := readReady_spec hs count
  rw [hread] at empty ⊢
  have hmessages := (isEmpty_iff.1 empty).1
  have room : (w.readReady count).2.messages.length < count := hmessages.symm ▸ pos
  have hpassed := hs.report.takeReady_all (Nat.le_refl _) (.inl room)
  rw [hasPending_eq_false_iff (hmoves.keeps.isGone.trans live), toRead, unreportedLosses_readReady,
    h.readReady_eq hs]
  exact congrArg (· + 0) (SeqNum.gap_eq_zero_iff.2 hpassed)

/-- With losses to tell and none to add to them, a read tells something. -/
theorem Lags.not_isEmpty (h : w.Lags) (hs : w.Sound) (live : w.isGone = false)
    (counted : w.unreportedLosses ≤ maxReported) (pos : 0 < count) :
    (w.read count).2.isEmpty = false := by
  have ready : w.hasReady := decide_eq_true (.inr h.2)
  have hreads := hs.reads_of_hasReady ready pos
  have fits : ¬ (w.readReady count).2.overflows := fun overflows => by
    have hmany := (hs.overflows_readReady count).1 overflows
    rw [readableLosses_of_read h.1] at hmany
    omega
  rw [Delivery.losses_pos_iff, or_iff_left fits] at hreads
  rw [show w.read count = w.readReady count from whileLive_of_live live]
  refine Bool.eq_false_iff.2 fun empty => ?_
  obtain ⟨hmessages, hlost⟩ := isEmpty_iff.1 empty
  rw [hmessages, hlost] at hreads
  exact hreads.elim (fun hne => hne rfl) (by decide)

/-- A read of a window that came out of a history leaves nothing if it hands out nothing. -/
theorem IsMade.idle_of_isEmpty (h : IsMade config w) (pos : 0 < count) (pending : w.hasPending)
    (empty : (w.read count).2.isEmpty) : (w.read count).1.hasPending = false := by
  obtain ⟨tsi, ops, rfl⟩ := h
  have live := live_of_hasPending pending
  have hs := (sound_run (sound_create tsi config) live).1
  rcases atRest_or_lags tsi config live with hrest | hlags
  · exact hrest.idle_of_isEmpty hs live pos empty
  · rw [hlags.not_isEmpty hs live (unreportedLosses_le tsi config live) pos] at empty
    cases empty

/-- The loop ends, with nothing pending, if its first read leaves nothing where it hands out nothing
and the loop ends where its first round leads. -/
theorem drains_succ
    (stops : w.hasPending → (w.read maxRead).2.isEmpty → (w.read maxRead).1.hasPending = false)
    (later : Drains maxRead (w.read maxRead).1.release.1
        (drainRounds maxRead rounds (w.read maxRead).1.release.1).1
        (drainRounds maxRead rounds (w.read maxRead).1.release.1).2 ∧
      (drainRounds maxRead rounds (w.read maxRead).1.release.1).1.hasPending = false) :
    Drains maxRead w (drainRounds maxRead (rounds + 1) w).1
        (drainRounds maxRead (rounds + 1) w).2 ∧
      (drainRounds maxRead (rounds + 1) w).1.hasPending = false := by
  rw [drainRounds]
  split
  next idle =>
    rw [Bool.not_eq_true'] at idle
    exact ⟨.idle idle, idle⟩
  next pending =>
    simp only [Bool.not_eq_true', Bool.not_eq_false] at pending
    have ok := outcome_read pending maxRead
    simp only
    split
    next stop => exact ⟨.stop pending stop, stops pending (stop.resolve_left (not_not.2 ok))⟩
    next goesOn =>
      have full := Bool.eq_false_iff.2 (not_or.1 goesOn).2
      exact ⟨.round pending ok full later.1, later.2⟩

/-- With the front at rest, as many rounds as there are reads with an outcome end the loop. -/
theorem AtRest.drains_drainRounds (h : w.AtRest) (hs : w.Sound) (live : w.isGone = false)
    (pos : 0 < maxRead) (enough : w.toRead ≤ rounds) :
    Drains maxRead w (drainRounds maxRead rounds w).1 (drainRounds maxRead rounds w).2 ∧
      (drainRounds maxRead rounds w).1.hasPending = false := by
  induction rounds generalizing w with
  | zero =>
    have idle := (hasPending_eq_false_iff live).2 (Nat.le_zero.1 enough)
    exact ⟨.idle idle, idle⟩
  | succ rounds ih =>
    obtain ⟨hsound, hlive, hrest, hleft⟩ := round_spec hs live maxRead
    have hless := toRead_readReady h hs pos
    exact drains_succ (fun _ => h.idle_of_isEmpty hs live pos) (ih hrest hsound hlive (by omega))

/-- The loop ends in every window that came out of a history, and nothing is pending then. -/
theorem IsMade.drains_drain (h : IsMade config w) (pos : 0 < maxRead) :
    Drains maxRead w (w.drain maxRead).1 (w.drain maxRead).2 ∧
      (w.drain maxRead).1.hasPending = false := by
  cases live : w.isGone with
  | true =>
    have idle : w.hasPending = false := by rw [hasPending, live]; rfl
    have hsame : w.drain maxRead = (w, []) := by rw [drain, drainRounds, idle]; rfl
    rw [hsame]
    exact ⟨.idle idle, idle⟩
  | false =>
    obtain ⟨tsi, ops, rfl⟩ := h
    have hs := (sound_run (sound_create tsi config) live).1
    obtain ⟨hsound, hlive, hrest, hleft⟩ := round_spec hs live maxRead
    exact drains_succ ((IsMade.create tsi config).run ops |>.idle_of_isEmpty pos)
      (hrest.drains_drainRounds hsound hlive pos (hleft.trans_le (hs.toRead_readReady_le maxRead)))

end ReliableMulticast.Window
