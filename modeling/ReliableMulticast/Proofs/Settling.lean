import ReliableMulticast.Proofs.Preservation
import ReliableMulticast.Proofs.Turnover

/-!
# Moves that happen in place

Resolving the front, giving up numbers, ending timers and taking in confirmations and parity add no
slot and take none away. Each of them is a sequence of moves that notes at most what was given up or
kept, so none of them delivers anything or lets a number leave the window.
-/

namespace ReliableMulticast

/-! ### Timers of a slot -/

namespace Slot

theorem waits_expire (slot : Slot) (c : WindowConfig) (now : Timestamp) (timer : Timer) :
    slot.Waits (slot.expire c now timer).1 := by
  cases timer with
  | backOff =>
    refine ⟨fun h => ?_, fun _ => ?_, rfl, rfl, rfl, rfl⟩
    · change (if slot.state = .backOff then SlotState.waitNcf else slot.state).repairPending
      split
      · rfl
      · exact h
    · change slot.state.Onward (if slot.state = .backOff then .waitNcf else slot.state)
      split
      next hs =>
        rw [hs]
        exact .single .request
      · exact .refl
  | waitNcf =>
    rw [expire, expireNcf]
    split <;> exact ⟨id, fun _ => .refl, rfl, rfl, rfl, rfl⟩
  | waitData =>
    rw [expire, expireData]
    split <;> exact ⟨id, fun _ => .refl, rfl, rfl, rfl, rfl⟩

/-- A missing packet without parity comes to wait for its data. -/
theorem onward_waitData {state : SlotState} (pending : state.repairPending)
    (bare : state ≠ .haveParity) : state.Onward .waitData := by
  cases state with
  | backOff => exact .tail (.single .request) .confirm
  | waitNcf => exact .single .confirm
  | waitData => exact .refl
  | haveParity => exact absurd rfl bare
  | haveData | committed | retained | lost => cases pending

theorem waits_confirm (slot : Slot) (c : WindowConfig) (now : Timestamp) :
    slot.Waits (slot.confirm c now) := by
  unfold confirm
  simp only
  split
  · exact ⟨id, fun _ => .refl, rfl, rfl, rfl, rfl⟩
  · refine ⟨fun _ => ?_, fun pending => ?_, rfl, rfl, rfl, rfl⟩
    · change (if slot.state = .haveParity then SlotState.haveParity else .waitData).repairPending
      split <;> rfl
    · change slot.state.Onward (if slot.state = .haveParity then .haveParity else .waitData)
      split
      next hs =>
        rw [hs]
        exact .refl
      next hs => exact onward_waitData pending hs

end Slot

namespace Window

variable {w : Window} {s : SeqNum} {slot : Slot}

/-! ### Resolving -/

/-- A missing packet lies ahead of `commitTrail`. -/
theorem Sound.ahead_of_pending (h : w.Sound) (hs : w.slots.get? s = some slot)
    (hp : slot.state.repairPending) : w.Ahead s := by
  have hnot := (h.slots hs).not_behind hp
  exact h.ahead_iff.2 ⟨by omega, place_lt_of_get? hs⟩

/-- The front passes one slot that is settled by itself. -/
theorem move_passFront_one (hs : w.slots.get? w.commitLead = some slot)
    (settled : Settled w.commitLead [slot]) : w.Move [] (w.passFront 1) := by
  have hlt := place_lt_of_get? hs
  refine .pass 1 hlt ?_
  rw [SlotRing.slice_succ hs, SlotRing.slice_zero]
  exact settled

/-- An APDU that the scan finds complete at the front begins the slots there. -/
theorem slice_of_scan (hs : w.slots.get? w.commitLead = some slot) {total count : Nat}
    (hscan : w.scanApdu w.commitLead total = .complete count) :
    w.place w.commitLead + count ≤ w.slots.size ∧
      Fragments w.commitLead total 0 (w.slots.slice w.commitLead count) := by
  obtain ⟨apdu, rest, hslots, rfl, fragments⟩ := scanApdu_eq_complete_iff.1 hscan
  have hlt := place_lt_of_get? hs
  have hgap := gap_next_of_place (Nat.le_of_lt hlt)
  have hlen : (w.slots.slice w.commitLead (w.commitLead.gap w.next)).length =
      w.commitLead.gap w.next := by
    refine SlotRing.length_slice ?_
    rw [hgap]
    exact Nat.le_of_eq (Nat.add_sub_cancel' (Nat.le_of_lt hlt))
  rw [slotsFrom_eq_slice (contains_iff_place.2 hlt)] at hslots
  have hcount : apdu.length ≤ w.commitLead.gap w.next := by
    rw [← hlen, hslots, List.length_append]
    exact Nat.le_add_right _ _
  refine ⟨by omega, ?_⟩
  obtain ⟨n, hn⟩ := Nat.exists_eq_add_of_le hcount
  rw [hn, SlotRing.slice_add] at hslots
  have hfirst := SlotRing.length_slice (r := w.slots) (s := w.commitLead) (n := apdu.length)
    (by change w.place w.commitLead + _ ≤ _; omega)
  rwa [(List.append_inj hslots hfirst).1]

/-- The front passes an APDU that the scan finds complete. -/
theorem move_passFront_scan (hs : w.slots.get? w.commitLead = some slot) {total count : Nat}
    (hscan : w.scanApdu w.commitLead total = .complete count) :
    w.Move [] (w.passFront count) := by
  obtain ⟨inside, fragments⟩ := slice_of_scan hs hscan
  refine .pass count inside ?_
  rw [← List.append_nil (w.slots.slice w.commitLead count)]
  exact .apdu (.fragmented fragments) .nil

/-- What a step at the front does, and when. -/
inductive FrontStep (w : Window) : Window → Prop
  /-- A packet that is an APDU of its own is passed. -/
  | single {slot : Slot} (found : w.slots.get? w.commitLead = some slot)
      (held : slot.state = .haveData) (alone : slot.fragment = none) : FrontStep w (w.passFront 1)
  /-- An APDU whose fragments are all held is passed. -/
  | whole {slot : Slot} {f : Fragment} {count : Nat}
      (found : w.slots.get? w.commitLead = some slot) (held : slot.state = .haveData)
      (fragment : slot.fragment = some f) (here : f.apduFirst = w.commitLead)
      (scan : w.scanApdu w.commitLead f.totalLength.toNat = .complete count) :
      FrontStep w (w.passFront count)
  /-- A slot that was given up or delivered is passed. -/
  | settled {slot : Slot} (found : w.slots.get? w.commitLead = some slot)
      (settled : slot.state = .lost ∨ slot.state.delivered) : FrontStep w (w.passFront 1)
  /-- A fragment whose APDU starts elsewhere is given up. -/
  | orphan {slot : Slot} {f : Fragment} (found : w.slots.get? w.commitLead = some slot)
      (held : slot.state = .haveData) (fragment : slot.fragment = some f)
      (elsewhere : f.apduFirst ≠ w.commitLead) : FrontStep w (w.giveUpSlot w.commitLead)
  /-- An APDU that lost a fragment is given up. -/
  | collapse {slot : Slot} {f : Fragment} (found : w.slots.get? w.commitLead = some slot)
      (held : slot.state = .haveData) (fragment : slot.fragment = some f)
      (here : f.apduFirst = w.commitLead)
      (broken : w.scanApdu w.commitLead f.totalLength.toNat = .lost) :
      FrontStep w (w.loseApdu w.commitLead)
  /-- An APDU whose fragments contradict each other is given up. -/
  | garble {slot : Slot} {f : Fragment} (found : w.slots.get? w.commitLead = some slot)
      (held : slot.state = .haveData) (fragment : slot.fragment = some f)
      (here : f.apduFirst = w.commitLead)
      (broken : w.scanApdu w.commitLead f.totalLength.toNat = .malformed) :
      FrontStep w ({ w with counters := w.counters.addMalformed }.loseApdu w.commitLead)

theorem frontStep {w' : Window} (hstep : w.resolveStep? = some w') : w.FrontStep w' := by
  unfold resolveStep? at hstep
  split at hstep
  · cases hstep
  next slot found =>
    split at hstep
    · cases hstep
    next arrived =>
      split at hstep
      next held =>
        split at hstep
        next alone =>
          obtain rfl := Option.some.inj hstep
          exact .single found held alone
        next f fragment =>
          split at hstep
          next elsewhere =>
            obtain rfl := Option.some.inj hstep
            exact .orphan found held fragment elsewhere
          next hhere =>
            have here := Decidable.not_not.1 hhere
            split at hstep
            next count scan =>
              obtain rfl := Option.some.inj hstep
              exact .whole found held fragment here scan
            · cases hstep
            next broken =>
              obtain rfl := Option.some.inj hstep
              exact .collapse found held fragment here broken
            next broken =>
              obtain rfl := Option.some.inj hstep
              exact .garble found held fragment here broken
      next hother =>
        obtain rfl := Option.some.inj hstep
        refine .settled found ?_
        revert arrived hother
        cases slot.state <;> decide

theorem moves_resolveStep (h : w.Sound) {w' : Window} (hstep : w.resolveStep? = some w') :
    w.Moves [] w' := by
  cases frontStep hstep with
  | single found held alone =>
    refine (move_passFront_one found ?_).moves
    exact .apdu (.single (by rw [held]; rfl) alone) .nil
  | whole found held fragment here scan => exact (move_passFront_scan found scan).moves
  | settled found settled =>
    refine (move_passFront_one found (.lost (settled.resolve_right fun delivered => ?_) .nil)).moves
    -- Nothing is delivered from the front on.
    rw [(h.slots found).undelivered (Nat.not_lt.2 h.commitTrail_le)] at delivered
    cases delivered
  | orphan found held fragment elsewhere => exact (Move.orphan found held fragment elsewhere).moves
  | collapse found held fragment here broken =>
    exact (Move.collapse found held fragment here broken).moves
  | garble found held fragment here broken =>
    exact (Move.garble found held fragment here broken).moves

theorem moves_resolveSteps (steps : Nat) (h : w.Sound) : w.Moves [] (resolveSteps steps w) := by
  induction steps generalizing w with
  | zero => exact .done w
  | succ steps ih =>
    rw [resolveSteps]
    split
    · exact .done w
    next w' hstep =>
      have first := moves_resolveStep h hstep
      exact first.silent_trans (ih (first.sound h))

theorem moves_resolve (h : w.Sound) : w.Moves [] w.resolve := moves_resolveSteps _ h

/-- A step at the front passes something there or gives it up. -/
theorem resolveStep?_cases {w' : Window} (hstep : w.resolveStep? = some w') :
    (∃ count, w' = w.passFront count) ∨ w' = w.giveUpSlot w.commitLead ∨
      w' = w.loseApdu w.commitLead ∨
      w' = { w with counters := w.counters.addMalformed }.loseApdu w.commitLead := by
  cases frontStep hstep with
  | single | whole | settled => exact .inl ⟨_, rfl⟩
  | orphan => exact .inr (.inl rfl)
  | collapse => exact .inr (.inr (.inl rfl))
  | garble => exact .inr (.inr (.inr rfl))

/-- What relates a window to the one that a step at the front leaves relates it to the one that all
steps leave. -/
theorem resolveSteps_of_step {R : Window → Window → Prop} (refl : ∀ w, R w w)
    (trans : ∀ {u v w}, R u v → R v w → R u w)
    (step : ∀ {w w' : Window}, w.resolveStep? = some w' → R w w') (steps : Nat) (w : Window) :
    R w (resolveSteps steps w) := by
  induction steps generalizing w with
  | zero => exact refl w
  | succ steps ih =>
    rw [resolveSteps]
    split
    · exact refl w
    next w' hstep => exact trans (step hstep) (ih w')

theorem frame_resolveStep {w' : Window} (hstep : w.resolveStep? = some w') :
    w'.frame = { w.frame with commitLead := w'.commitLead } := by
  have given : ∀ {v : Window}, v.frame = w.frame →
      v.frame = { w.frame with commitLead := v.commitLead } := by
    intro v hf
    rw [hf, show v.commitLead = w.commitLead from congrArg Frame.commitLead hf]
    rfl
  obtain ⟨count, rfl⟩ | rfl | rfl | rfl := resolveStep?_cases hstep
  · rfl
  · exact given (frame_giveUpSlot w w.commitLead)
  · exact given (frame_loseApdu w w.commitLead)
  · exact given (frame_loseApdu { w with counters := w.counters.addMalformed } w.commitLead)

/-- Besides slots, queues and counters, resolving changes `commitLead` only. -/
theorem frame_resolve (w : Window) :
    w.resolve.frame = { w.frame with commitLead := w.resolve.commitLead } :=
  resolveSteps_of_step (R := fun w w' => w'.frame = { w.frame with commitLead := w'.commitLead })
    (fun _ => rfl) (fun h h' => by rw [h', h]) frame_resolveStep _ w

/-- What happens before resolving decides the notes. -/
theorem Moves.resolve {w' : Window} {notes : List Note} (hm : w.Moves notes w') (h : w.Sound) :
    w.Moves notes w'.resolve :=
  hm.trans_silent (moves_resolve (hm.sound h))

/-! ### Giving up -/

theorem moves_loseAll {numbers : List SeqNum} (ahead : ∀ s ∈ numbers, w.Ahead s) :
    w.Moves (numbers.map .gaveUp) (numbers.foldl loseApdu w) := by
  induction numbers generalizing w with
  | nil => exact .done w
  | cons s numbers ih =>
    rw [List.foldl_cons]
    refine (Move.lose s (ahead s (List.mem_cons_self ..))).moves.trans (ih fun x hx => ?_)
    exact ahead_of_frame_eq (frame_loseApdu w s) (ahead x (List.mem_cons_of_mem s hx))

/-- The numbers behind `s` that are given up when the sender cannot repair them any more. -/
def pendingBefore (w : Window) (s : SeqNum) : List SeqNum :=
  (w.commitTrail.upTo (if s.After w.next then w.next else s)).filter
    (w.slotIs · (·.state.repairPending))

theorem moves_losePending (h : w.Sound) (s : SeqNum) :
    w.Moves ((w.pendingBefore s).map .gaveUp) (w.losePending s) := by
  refine moves_loseAll fun x hx => ?_
  obtain ⟨-, hp⟩ := List.mem_filter.1 hx
  rw [slotIs, Option.any_eq_true] at hp
  obtain ⟨slot, hs, hp⟩ := hp
  exact h.ahead_of_pending hs hp

theorem moves_followTrail (h : w.Sound) (trail : SeqNum) :
    ∃ numbers : List SeqNum, w.Moves (numbers.map .gaveUp) (w.followTrail trail) ∧
      ∀ s ∈ numbers, trail.After w.senderTrail ∧ s ∈ w.pendingBefore trail := by
  unfold followTrail
  split
  next hafter =>
    have heard : w.Move [] { w with senderTrail := trail } := .aside rfl rfl rfl rfl rfl
    exact ⟨_, heard.moves.silent_trans (moves_losePending (heard.sound h) trail),
      fun s hs => ⟨hafter, hs⟩⟩
  · exact ⟨[], .done w, fun s hs => by cases hs⟩

/-- A slot that is not delivered and not lost is given up on request, and nothing else is. -/
theorem acceptLoss_cases (w : Window) (s : SeqNum) :
    (w.acceptLoss s).1 = w ∨ ∃ slot, w.slots.get? s = some slot ∧ slot.state ≠ .lost ∧
      ¬ s.Before w.commitTrail ∧ (w.acceptLoss s).1 = (w.loseApdu s).resolve := by
  unfold acceptLoss
  split
  · exact .inl rfl
  · split
    · exact .inl rfl
    next hnot =>
      split
      · exact .inl rfl
      next slot found =>
        split
        · exact .inl rfl
        next hlost => exact .inr ⟨slot, found, hlost, hnot, rfl⟩

theorem Sound.ahead_of_not_before (h : w.Sound) (found : w.slots.get? s = some slot)
    (hnot : ¬ s.Before w.commitTrail) : w.Ahead s := by
  have hlt := place_lt_of_get? found
  rw [h.before_iff (Nat.le_of_lt hlt) h.place_commitTrail_le] at hnot
  exact h.ahead_iff.2 ⟨by omega, hlt⟩

theorem moves_acceptLoss (h : w.Sound) (s : SeqNum) :
    ∃ numbers : List SeqNum, w.Moves (numbers.map .gaveUp) (w.acceptLoss s).1 ∧
      ∀ x ∈ numbers, x = s ∧ w.slotIs s (·.state ≠ .lost) := by
  rcases w.acceptLoss_cases s with he | ⟨slot, found, hlost, hnot, he⟩ <;> rw [he]
  · exact ⟨[], .done w, fun x hx => by cases hx⟩
  · have lose := Move.lose s (h.ahead_of_not_before found hnot)
    refine ⟨[s], lose.moves.resolve h, fun x hx => ⟨List.mem_singleton.1 hx, ?_⟩⟩
    simp [slotIs, found, hlost]

/-! ### Waiting -/

theorem move_wait {change : Slot → Slot} (hs : w.slots.get? s = some slot)
    (hp : slot.state.repairPending) (hw : slot.Waits (change slot)) :
    w.Move [] (w.modify s change) :=
  .wait s change hs hp hw

/-- The number belongs to a missing packet. -/
def IsMissing (w : Window) (s : SeqNum) : Prop :=
  ∃ slot, w.slots.get? s = some slot ∧ slot.state.repairPending

theorem IsMissing.modify (change : Slot → Slot) (hs : w.slots.get? s = some slot)
    (hw : slot.Waits (change slot)) {x : SeqNum} (hx : w.IsMissing x) :
    (w.modify s change).IsMissing x := by
  obtain ⟨old, hold, hp⟩ := hx
  by_cases he : x = s
  · subst he
    obtain rfl := Option.some.inj (hs.symm.trans hold)
    refine ⟨{ change slot with sequence := slot.sequence }, ?_, hw.pending hp⟩
    rw [get?_modify, if_pos rfl, hold]
    rfl
  · exact ⟨old, by rw [get?_modify, if_neg he]; exact hold, hp⟩

/-- Ending timers of missing packets is a matter of waiting, and tells only of these packets. -/
theorem moves_endTimers (timer : Timer) (now : Timestamp) {due : List SeqNum} (w : Window)
    (missing : ∀ s ∈ due, w.IsMissing s) :
    w.Moves [] (endTimers timer now due w).1 ∧ (endTimers timer now due w).1.frame = w.frame ∧
      ∀ e ∈ (endTimers timer now due w).2, e.sequence ∈ due := by
  induction due generalizing w with
  | nil => exact ⟨.done w, rfl, fun e he => absurd he List.not_mem_nil⟩
  | cons s due ih =>
    obtain ⟨slot, hs, hp⟩ := missing s (List.mem_cons_self ..)
    have hw := slot.waits_expire w.config.1 now timer
    obtain ⟨hmoves, hframe, hended⟩ := ih (w.modify s fun _ => (slot.expire w.config.1 now timer).1)
      fun x hx => IsMissing.modify (fun _ => (slot.expire w.config.1 now timer).1) hs hw
        (missing x (List.mem_cons_of_mem s hx))
    simp only [endTimers, hs]
    refine ⟨(move_wait hs hp hw).moves.silent_trans hmoves,
      hframe.trans (frame_modify w s _), fun e he => ?_⟩
    rcases List.mem_cons.1 he with rfl | he
    · exact List.mem_cons_self ..
    · exact List.mem_cons_of_mem s (hended e he)

/-- A slot that runs a timer misses its packet. -/
theorem Sound.isMissing_of_expiryIn (h : w.Sound) (timer : Timer)
    (hs : (w.expiryIn timer s).isSome) : w.IsMissing s := by
  unfold expiryIn at hs
  split at hs
  · cases hs
  next slot hslot =>
    split at hs
    next ht => exact ⟨slot, hslot, (h.slots hslot).timer (by rw [ht]; exact Option.some_ne_none _)⟩
    · cases hs

theorem moves_endDue (h : w.Sound) (now : Timestamp) (timer : Timer) :
    w.Moves [] (w.endDue now timer).1 ∧ (w.endDue now timer).1.frame = w.frame ∧
      ∀ e ∈ (w.endDue now timer).2, w.Ahead e.sequence := by
  rcases hpop : w.queues.popDue timer now (w.expiryIn timer) with ⟨due, queues⟩
  rcases hend : endTimers timer now due { w with queues } with ⟨w', ended⟩
  have missing : ∀ s ∈ due, w.IsMissing s := by
    intro s hs
    rw [show due = (TimerQueues.splitDue now (w.expiryIn timer) (w.queues.queue timer)).1 from
      (congrArg Prod.fst hpop).symm] at hs
    exact h.isMissing_of_expiryIn timer (TimerQueues.isSome_of_mem_splitDue hs)
  obtain ⟨hmoves, hframe, hended⟩ := moves_endTimers timer now { w with queues } missing
  rw [hend] at hmoves hframe hended
  have popped : w.Move [] { w with queues } := .aside rfl rfl rfl rfl rfl
  have pushed : w'.Move [] { w' with
      queues := w'.queues.pushAll timer.afterRequest (Ended.requesting ended) } :=
    .aside rfl rfl rfl rfl rfl
  simp only [endDue, hpop, hend]
  refine ⟨popped.moves.silent_trans (hmoves.silent_trans pushed.moves), hframe, fun e he => ?_⟩
  obtain ⟨slot, hs, hp⟩ := missing _ (hended e he)
  exact h.ahead_of_pending hs hp

/-- What ending the timers of each kind keeps is kept by ending all. -/
theorem endAllDue_phases {P : Window → List Ended → Prop} (now : Timestamp) (start : P w [])
    (phase : ∀ v ended timer, P v ended →
      P (v.endDue now timer).1 (ended ++ (v.endDue now timer).2)) :
    P (w.endAllDue now).1 (w.endAllDue now).2 := by
  have first := phase w [] .backOff start
  have second := phase _ _ .waitNcf first
  have third := phase _ _ .waitData second
  simpa only [endAllDue, List.nil_append] using third

theorem moves_endAllDue (h : w.Sound) (now : Timestamp) :
    w.Moves [] (w.endAllDue now).1 ∧
      ∀ e ∈ (w.endAllDue now).2, (w.endAllDue now).1.Ahead e.sequence := by
  refine endAllDue_phases (P := fun v ended => w.Moves [] v ∧ ∀ e ∈ ended, v.Ahead e.sequence) now
    ⟨.done w, nofun⟩ ?_
  rintro v ended timer ⟨hmoves, ahead⟩
  obtain ⟨more, hframe, hended⟩ := moves_endDue (hmoves.sound h) now timer
  refine ⟨hmoves.silent_trans more, fun e he => ahead_of_frame_eq hframe ?_⟩
  rcases List.mem_append.1 he with he | he
  · exact ahead e he
  · exact hended e he

/-- What is exhausted is given up, as it is ahead of `commitTrail`. -/
theorem moves_loseExhausted (h : w.Sound) (now : Timestamp) :
    w.Moves ((Ended.exhausted (w.endAllDue now).2).map .gaveUp)
      ((Ended.exhausted (w.endAllDue now).2).foldl loseApdu (w.endAllDue now).1) := by
  obtain ⟨hmoves, hahead⟩ := moves_endAllDue h now
  generalize w.endAllDue now = r at *
  refine hmoves.silent_trans (moves_loseAll fun s hs => ?_)
  obtain ⟨e, he, rfl⟩ := List.mem_map.1 hs
  exact hahead e (List.mem_filter.1 he).1

theorem moves_sweepAll (h : w.Sound) (now : Timestamp) :
    ∃ numbers : List SeqNum, w.Moves (numbers.map .gaveUp) (w.sweepAll now).1 ∧
      ∀ s ∈ numbers, s ∈ Ended.exhausted (w.endAllDue now).2 := by
  have hlose := moves_loseExhausted h now
  rcases hend : w.endAllDue now with ⟨w', ended⟩
  rw [hend] at hlose
  simp only [sweepAll, hend]
  split
  · exact ⟨[], .done w, fun s hs => by cases hs⟩
  · exact ⟨_, hlose.resolve h, fun s hs => hs⟩

/-! ### Confirmations and parity -/

/-- A confirmation that is not too old for a slot restarts its timer, and another changes nothing. -/
theorem acceptNcf_cases (w : Window) (s : SeqNum) (sent now : Timestamp) :
    (w.acceptNcf s sent now).1 = w ∧
        (w.isDefined → ∀ slot, w.slots.get? s = some slot → slot.timer.isSome → sent < slot.created) ∨
      ∃ slot timer, slot.sequence = s ∧ w.slots.get? slot.sequence = some slot ∧
        slot.timer = some timer ∧ ¬ sent < slot.created ∧
          (w.acceptNcf s sent now).1 = w.restart slot timer now := by
  unfold acceptNcf
  split
  next undefined => exact .inl ⟨rfl, fun defined => by rw [defined] at undefined; cases undefined⟩
  · split
    next hnone => exact .inl ⟨rfl, fun _ slot found => by cases hnone.symm.trans found⟩
    next slot found =>
      have only : ∀ other, some slot = some other → slot = other := fun _ => Option.some.inj
      have hsequence := SlotRing.sequence_of_get? found
      split
      next stale =>
        refine .inl ⟨rfl, fun _ other hother _ => ?_⟩
        rwa [← only other (found.symm.trans hother)]
      next fresh =>
        split
        next timer runs => exact .inr ⟨slot, timer, hsequence, hsequence ▸ found, runs, fresh, rfl⟩
        next idle =>
          refine .inl ⟨rfl, fun _ other hother runs => ?_⟩
          rw [← only other (found.symm.trans hother), idle] at runs
          cases runs

theorem moves_acceptNcf (h : w.Sound) (s : SeqNum) (sent now : Timestamp) :
    w.Moves [] (w.acceptNcf s sent now).1 := by
  rcases w.acceptNcf_cases s sent now with ⟨he, -⟩ | ⟨slot, timer, -, found, runs, -, he⟩ <;> rw [he]
  · exact .done w
  · have pending := (h.slots found).timer (by rw [runs]; exact Option.some_ne_none timer)
    exact (move_wait found pending (slot.waits_confirm w.config.1 now)).moves.silent_trans
      (Move.moves (.aside rfl rfl rfl rfl rfl))

/-- An announced group size is taken over if it makes sense and no group is being repaired. -/
theorem announceGroups_cases (w : Window) (size shift : Nat) :
    w.announceGroups size shift = w ∨ w.acceptsGroupSize size shift ∧ w.holdsGroupData = false ∧
      w.announceGroups size shift = { w with groupSize := size } := by
  unfold announceGroups
  split
  · exact .inl rfl
  · split
    next h =>
      rw [Bool.and_eq_true, Bool.not_eq_true'] at h
      exact .inr ⟨h.1, h.2, rfl⟩
    · exact .inl rfl

theorem moves_announceGroups (w : Window) (size shift : Nat) :
    ∃ notes, w.Moves notes (w.announceGroups size shift) ∧ (notes = [] ∨ notes = [.regrouped]) := by
  rcases w.announceGroups_cases size shift with he | ⟨accepted, idle, he⟩ <;> rw [he]
  · exact ⟨[], .done w, .inl rfl⟩
  · exact ⟨_, (Move.regroup size shift accepted idle).moves, .inr rfl⟩

theorem Sound.announceGroups (h : w.Sound) (size shift : Nat) : (w.announceGroups size shift).Sound :=
  let ⟨_, hmoves, _⟩ := w.moves_announceGroups size shift
  hmoves.sound h

/-- What becomes of a parity packet whose group is in the window. -/
inductive StoresParity (w : Window) (p : Packet) (outcome : Outcome) : Window × Receipt → Prop
  /-- A member of the group was given up. -/
  | lost {slot : Slot} {x : SeqNum} (member : x ∈ w.groupNumbers p.sequence)
      (found : w.slots.get? x = some slot) (lost : slot.state = .lost) :
      StoresParity w p outcome (w, .of .apduLost)
  /-- All missing members keep a parity packet. -/
  | duplicate (full : ∀ x ∈ w.groupNumbers p.sequence, ∀ slot, w.slots.get? x = some slot →
      slot.state.repairPending → slot.parity ≠ none) :
      StoresParity w p outcome ({ w with counters := w.counters.addDuplicate }, .of .duplicate)
  | keep {slot : Slot} {kept : Window} (member : slot.sequence ∈ w.groupNumbers p.sequence)
      (found : w.slots.get? slot.sequence = some slot) (pending : slot.state.repairPending)
      (bare : slot.parity = none) (keeps : kept = w.modify slot.sequence (·.keepParity
        ⟨UInt32.ofNat (w.groupIndex p.sequence), p.payload⟩)) :
      StoresParity w p outcome
        (kept.resolve, ⟨outcome, false, true, kept.resolve.repairableGroup? p.sequence⟩)

theorem storesParity (w : Window) (p : Packet) (outcome : Outcome) :
    w.StoresParity p outcome (w.storeParity p outcome) := by
  unfold storeParity
  simp only
  split
  next hlost =>
    obtain ⟨slot, hslot, lost⟩ := List.any_eq_true.1 hlost
    obtain ⟨x, hx, found⟩ := List.mem_filterMap.1 hslot
    exact .lost hx found (of_decide_eq_true lost)
  · split
    next hnone =>
      refine .duplicate fun x hx slot found pending bare => ?_
      have full := List.find?_eq_none.1 hnone slot (List.mem_filterMap.2 ⟨x, hx, found⟩)
      rw [pending, bare] at full
      exact full rfl
    next slot hfind =>
      obtain ⟨x, hx, found⟩ := List.mem_filterMap.1 (List.mem_of_find?_eq_some hfind)
      obtain rfl := SlotRing.sequence_of_get? found
      have hbare := List.find?_some hfind
      rw [Bool.and_eq_true, Option.isNone_iff_eq_none] at hbare
      exact .keep hx found hbare.1 hbare.2 rfl

/-- A parity packet is kept exactly if the answer says so. -/
theorem moves_storeParity (h : w.Sound) (p : Packet) (outcome : Outcome)
    (whole : ¬ (w.groupLast p.sequence).After w.lead) :
    w.Moves (if (w.storeParity p outcome).2.consumed then [.kept p] else [])
      (w.storeParity p outcome).1 := by
  have stores := w.storesParity p outcome
  generalize w.storeParity p outcome = answer at *
  cases stores with
  | lost => exact .done w
  | duplicate => exact Move.moves (.aside rfl rfl rfl rfl rfl)
  | keep member found pending bare keeps =>
    rw [keeps]
    exact (Move.keep _ p found pending bare member whole).moves.resolve h

end Window

end ReliableMulticast
