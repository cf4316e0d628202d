import ReliableMulticast.Proofs.Queueing

/-!
# No missing packet is forgotten

Every operation keeps slots and queues in agreement. A sweep is the one that stops and starts timers
in bulk: as no number in a queue is stale, the numbers that are due are the front of the queue
(`TimerQueues.splitDue_append`), each stands there once, and each slot goes on with the timer of the
queue that its number is put in (`Timed.endDue`) or has used up its requests and is given up with its
APDU.
-/

namespace ReliableMulticast

/-- A slot whose timer ends runs the timer that follows a request, or it sends none and stops. -/
theorem Slot.Clocked.expire {slot : Slot} (h : slot.Clocked) {timer : Timer}
    (runs : slot.timer = some timer) (c : WindowConfig) (now : Timestamp) :
    (slot.expire c now timer).2.isSome ∧
        (slot.expire c now timer).1.timer = some timer.afterRequest ∧
        (slot.expire c now timer).1.Clocked ∨
      (slot.expire c now timer).2 = none ∧ (slot.expire c now timer).1.timer = none := by
  have hstate := h.state_eq runs
  cases timer with
  | backOff =>
    refine .inl ⟨rfl, rfl, ⟨fun _ => Option.some_ne_none _, fun _ => ?_⟩, fun t ht => ?_⟩
    · change (if slot.state = .backOff then SlotState.waitNcf else slot.state).repairPending
      rcases hstate with hs | hs <;> rw [hs] <;> rfl
    · change (if slot.state = .backOff then SlotState.waitNcf else slot.state) = t.waiting at ht
      rcases hstate with hs | hs <;> rw [hs] at ht <;> cases t <;> first | rfl | cases ht
  | waitNcf =>
    rw [Slot.expire, expireNcf]
    split
    · exact .inr ⟨rfl, rfl⟩
    · exact .inl ⟨rfl, rfl, h.congr rfl runs.symm⟩
  | waitData =>
    rw [Slot.expire, expireData]
    split
    · exact .inr ⟨rfl, rfl⟩
    · exact .inl ⟨rfl, rfl, h.congr rfl runs.symm⟩

namespace Window

variable {w w' : Window} {s : SeqNum} {slot : Slot} {idle : List SeqNum}

namespace Timed

/-! ### Packets -/

theorem fillSlot (h : w.Timed []) {p : Packet} (found : w.slots.get? p.sequence = some slot)
    (source : Option RepairSource) (now : Timestamp) :
    (w.fillSlot slot p source now).Timed [] := by
  have hget : ∀ x, (w.fillSlot slot p source now).slots.get? x =
      (w.modify p.sequence fun slot =>
        slot.fill p.payload p.fragment (source = some .parity)).slots.get? x := fun x => rfl
  refine h.stop found rfl (fun x hx => ?_) (fun new hs => ?_) fun x hx => .inr hx
  · rw [hget, get?_modify, if_neg hx]
  · rw [hget, get?_modify, if_pos rfl, found] at hs
    obtain rfl := Option.some.inj hs
    exact ⟨rfl, rfl⟩

theorem acceptData (h : w.Timed []) (hs : w.Sound) (p : Packet) (source : Option RepairSource)
    (now : Timestamp) : (w.acceptData p source now).1.Timed [] := by
  cases hm : w.isMalformed p with
  | true =>
    rw [acceptData_of_malformed hm]
    exact h.of_slots_eq rfl rfl
  | false =>
    obtain ⟨-, hdefined, hsound, -⟩ := ensureDefined_spec hs p.sequence
    have hplaced := h.ensureDefined p.sequence
    have htakes := takes_acceptData hm source now
    generalize w.acceptData p source now = answer at htakes
    generalize w.ensureDefined p.sequence = w at *
    cases htakes with
    | behind | lost => exact hplaced
    | duplicate => exact hplaced.of_slots_eq rfl rfl
    | ahead after => exact (hplaced.extend hsound hdefined after now).resolve
    | missing found => exact (hplaced.fillSlot found source now).resolve

theorem storeParity (h : w.Timed []) (p : Packet) (outcome : Outcome) :
    (w.storeParity p outcome).1.Timed [] := by
  have stores := w.storesParity p outcome
  generalize w.storeParity p outcome = answer at *
  cases stores with
  | lost => exact h
  | duplicate => exact h.of_slots_eq rfl rfl
  | keep _ found pending _ keeps =>
    rw [keeps]
    refine resolve (h.modify (fun _ _ => rfl) fun old hold hc => ?_)
    obtain rfl := Option.some.inj (found.symm.trans hold)
    exact ⟨⟨fun _ => hc.runs.1 pending, fun _ => rfl⟩, fun t ht => by cases t <;> cases ht⟩

theorem acceptParity (h : w.Timed []) (hs : w.Sound) (p : Packet) (now : Timestamp) :
    (w.acceptParity p now).1.Timed [] := by
  unfold Window.acceptParity
  split
  · exact h.of_slots_eq rfl rfl
  · obtain ⟨-, hdefined, hsound, -⟩ := ensureDefined_spec hs (w.groupFirst p.sequence)
    have hplaced := h.ensureDefined (w.groupFirst p.sequence)
    simp only
    generalize w.ensureDefined (w.groupFirst p.sequence) = w at *
    split
    · exact hplaced
    · split
      next hafter => exact (hplaced.advanceLead hsound hdefined hafter now).storeParity p _
      · exact hplaced.storeParity p _

/-! ### News from the sender -/

theorem restart (h : w.Timed []) (found : w.slots.get? slot.sequence = some slot) {timer : Timer}
    (runs : slot.timer = some timer) (now : Timestamp) :
    (w.restart slot timer now).Timed [] := by
  have hclocked := h.clocked_of_get? found
  have hp : slot.state.repairPending := hclocked.runs.2 (by rw [runs]; exact Option.some_ne_none _)
  have hget : ∀ x, (w.restart slot timer now).slots.get? x =
      (w.modify slot.sequence (Slot.confirm w.config.1 now)).slots.get? x := fun x => rfl
  have hqueues : (w.restart slot timer now).queues =
      (w.queues.erase timer slot.sequence).pushAll .waitData [slot.sequence] := rfl
  -- The slot waits for its data from now on, whichever timer it ran.
  obtain ⟨hconfirm, hnew⟩ : (slot.confirm w.config.1 now).timer = some .waitData ∧
      (slot.confirm w.config.1 now).Clocked := by
    unfold Slot.confirm
    simp only
    split
    next ht => exact ⟨ht, hclocked.congr rfl rfl⟩
    · refine ⟨rfl, ⟨fun _ => Option.some_ne_none _, fun _ => ?_⟩, fun t ht => ?_⟩
      · simp only
        split <;> rfl
      · simp only at ht
        split at ht <;> cases t <;> first | rfl | cases ht
  have htimer : ∀ x, (w.restart slot timer now).timerOf x =
      if x = slot.sequence then some .waitData else w.timerOf x := by
    intro x
    rw [timerOf, hget, get?_modify]
    split
    next hx =>
      subst hx
      rw [found]
      exact hconfirm
    · rfl
  refine ⟨fun t x => ?_, fun x new hs => ?_⟩
  · rw [hqueues, TimerQueues.count_pushAll, TimerQueues.count_erase, h.queued, htimer]
    by_cases hx : x = slot.sequence
    · subst hx
      rw [timerOf_of_get? found, runs]
      cases t <;> cases timer <;> simp
    · simp [hx, List.count_eq_zero_of_not_mem]
  · rw [hget, get?_modify] at hs
    split at hs
    next hx =>
      subst hx
      rw [found] at hs
      obtain rfl := Option.some.inj hs
      exact .inl (hnew.congr rfl rfl)
    · exact h.clocked x new hs

theorem acceptNcf (h : w.Timed []) (s : SeqNum) (sent now : Timestamp) :
    (w.acceptNcf s sent now).1.Timed [] := by
  rcases w.acceptNcf_cases s sent now with ⟨he, -⟩ | ⟨slot, timer, -, found, runs, -, he⟩ <;> rw [he]
  · exact h
  · exact h.restart found runs now

theorem followTrail (h : w.Timed []) (trail : SeqNum) : (w.followTrail trail).Timed [] := by
  unfold Window.followTrail
  split
  · have heard : ({ w with senderTrail := trail } : Window).Timed [] := h.of_slots_eq rfl rfl
    exact (heard.mono (List.nil_subset _)).loseAll
  · exact h

theorem acceptStatus (h : w.Timed []) (hs : w.Sound) (trail lead : SeqNum) (size shift : Nat)
    (now : Timestamp) : (w.acceptStatus trail lead size shift now).1.Timed [] := by
  unfold Window.acceptStatus
  split
  · exact h.of_slots_eq rfl rfl
  · have hsound := hs.announceGroups size shift
    have hgroups : (w.announceGroups size shift).Timed [] := by
      rcases w.announceGroups_cases size shift with he | ⟨-, -, he⟩ <;> rw [he]
      · exact h
      · exact h.of_slots_eq rfl rfl
    simp only
    generalize w.announceGroups size shift = w at *
    split
    · exact (Timed.define w lead.next).of_slots_eq rfl rfl
    next hd =>
      have defined : w.isDefined := by simpa using hd
      have hlead : (w.followLead lead now).1.Timed [] := by
        unfold followLead
        split
        next hafter => exact hgroups.advanceLead hsound defined hafter now
        · exact hgroups
      generalize w.followLead lead now = followed at hlead ⊢
      exact (hlead.followTrail trail).resolve

theorem acceptLoss (h : w.Timed []) (s : SeqNum) : (w.acceptLoss s).1.Timed [] := by
  rcases w.acceptLoss_cases s with he | ⟨_, -, -, -, he⟩ <;> rw [he]
  · exact h
  · exact ((h.mono (List.nil_subset [s])).loseApdu).resolve

/-! ### Sweeping -/

/-- What ending a timer makes of a slot: it goes on with the timer that follows its request, or it
is exhausted and has stopped. -/
def Restarts (timer : Timer) (ended : List Ended) (x : SeqNum) (new : Slot) : Prop :=
  x ∈ Ended.requesting ended ∧ new.timer = some timer.afterRequest ∧ new.Clocked ∨
    x ∉ Ended.requesting ended ∧ x ∈ Ended.exhausted ended ∧ new.timer = none

/-- The timers of the numbers that are due ended, and nothing else changed. -/
structure Ends (w : Window) (timer : Timer) (due : List SeqNum) (w' : Window)
    (ended : List Ended) : Prop where
  queues : w'.queues = w.queues
  requesting : (Ended.requesting ended).Sublist due
  other : ∀ x, x ∉ due → w'.slots.get? x = w.slots.get? x
  restarts : ∀ x ∈ due, ∃ new, w'.slots.get? x = some new ∧ Restarts timer ended x new

theorem ends_endTimers (timer : Timer) (now : Timestamp) {due : List SeqNum} (hnodup : due.Nodup)
    (hdue : ∀ x ∈ due, ∃ slot, w.slots.get? x = some slot ∧ slot.Clocked ∧
      slot.timer = some timer) :
    Ends w timer due (endTimers timer now due w).1 (endTimers timer now due w).2 := by
  induction due generalizing w with
  | nil => exact ⟨rfl, .refl _, fun _ _ => rfl, fun x hx => absurd hx List.not_mem_nil⟩
  | cons s due ih =>
    obtain ⟨hs, hnodup⟩ := List.nodup_cons.1 hnodup
    obtain ⟨slot, found, hclocked, runs⟩ := hdue s (List.mem_cons_self ..)
    have hexpire := hclocked.expire runs w.config.1 now
    simp only [endTimers, found]
    generalize slot.expire w.config.1 now timer = expired at hexpire ⊢
    obtain ⟨expired, stage⟩ := expired
    obtain ⟨hqueues, hsub, hother, hended⟩ := ih (w := w.modify s fun _ => expired) hnodup
      fun x hx => by
        obtain ⟨old, hold, hrest⟩ := hdue x (List.mem_cons_of_mem s hx)
        refine ⟨old, ?_, hrest⟩
        rw [get?_modify, if_neg (by rintro rfl; exact hs hx), hold]
    generalize endTimers timer now due (w.modify s fun _ => expired) = rest at *
    obtain ⟨w', ended⟩ := rest
    have hself : w'.slots.get? s = some { expired with sequence := slot.sequence } := by
      rw [hother s hs, get?_modify, if_pos rfl, found]
      rfl
    have hnot : s ∉ Ended.requesting ended := fun hm => hs (hsub.mem hm)
    refine ⟨hqueues, ?_, fun x hx => ?_, fun x hx => ?_⟩
    · cases stage with
      | none => exact hsub.cons s
      | some stage => exact hsub.cons_cons s
    · rw [List.mem_cons, not_or] at hx
      rw [hother x hx.2, get?_modify, if_neg hx.1]
    · rcases List.mem_cons.1 hx with rfl | hmem
      · refine ⟨_, hself, ?_⟩
        rcases hexpire with ⟨hsome, htimer, hc⟩ | ⟨hnone, htimer⟩
        · obtain ⟨stage, rfl⟩ := Option.isSome_iff_exists.1 hsome
          exact .inl ⟨List.mem_cons_self .., htimer, hc.congr rfl rfl⟩
        · subst hnone
          exact .inr ⟨hnot, List.mem_cons_self .., htimer⟩
      · obtain ⟨new, hnew, hrestarts⟩ := hended x hmem
        refine ⟨new, hnew, ?_⟩
        have hxs : x ≠ s := by
          rintro rfl
          exact hs hmem
        rcases hrestarts with ⟨hm, hrest⟩ | ⟨hm, hex, htimer⟩
        · cases stage with
          | none => exact .inl ⟨hm, hrest⟩
          | some stage => exact .inl ⟨List.mem_cons_of_mem s hm, hrest⟩
        · cases stage with
          | none => exact .inr ⟨hm, List.mem_cons_of_mem s hex, htimer⟩
          | some stage =>
            exact .inr ⟨fun hm' => (List.mem_cons.1 hm').elim hxs hm, hex, htimer⟩

/-- The numbers whose timers ended and that asked for a repair are queued for their next timer. -/
theorem count_queue_of_ends (h : w.Timed idle) {timer : Timer} {due later : List SeqNum}
    {ended : List Ended} (hsplit : due ++ later = w.queues.queue timer) (hdue : due.Nodup)
    (ends : Ends { w with queues := w.queues.set timer later } timer due w' ended) (u : Timer)
    (x : SeqNum) :
    ((w'.queues.pushAll timer.afterRequest (Ended.requesting ended)).queue u).count x =
      if w'.timerOf x = some u then 1 else 0 := by
  have hqueue := h.queued timer x
  rw [← hsplit, List.count_append] at hqueue
  rw [TimerQueues.count_pushAll, ends.queues, TimerQueues.queue_set]
  by_cases hx : x ∈ due
  · obtain ⟨old, found, ht⟩ := h.exists_slot (hsplit ▸ List.mem_append_left later hx)
    obtain ⟨new, hnew, hrestarts⟩ := ends.restarts x hx
    have hold : w.timerOf x = some timer := (timerOf_of_get? found).trans ht
    rw [hold, if_pos rfl, List.count_eq_one_of_mem hdue hx] at hqueue
    have hleft : (if u = timer then later else w.queues.queue u).count x = 0 := by
      split
      · omega
      next hu => rw [h.queued, hold, if_neg fun he => hu (Option.some.inj he).symm]
    rw [hleft, timerOf_of_get? hnew]
    rcases hrestarts with ⟨hm, htimer, -⟩ | ⟨hm, -, htimer⟩
    · rw [List.count_eq_one_of_mem (hdue.sublist ends.requesting) hm, htimer, Nat.zero_add]
      simp [eq_comm]
    · rw [List.count_eq_zero_of_not_mem hm, htimer]
      simp
  · have hsame : w'.timerOf x = w.timerOf x := by rw [timerOf, timerOf, ends.other x hx]
    rw [List.count_eq_zero_of_not_mem fun hm => hx (ends.requesting.mem hm), ite_self, Nat.add_zero,
      hsame, ← h.queued u x]
    rw [List.count_eq_zero_of_not_mem hx, Nat.zero_add] at hqueue
    split
    next hu => rw [hu, hqueue, h.queued]
    · rfl

/-- The slots whose timers ended go on in the queue of their next timer, or are idle. -/
theorem endDue (h : w.Timed idle) (now : Timestamp) (timer : Timer) :
    (w.endDue now timer).1.Timed (idle ++ Ended.exhausted (w.endDue now timer).2) := by
  have runs : ∀ x ∈ w.queues.queue timer, ∃ slot, w.slots.get? x = some slot ∧ slot.Clocked ∧
      slot.timer = some timer := by
    intro x hx
    obtain ⟨slot, found, ht⟩ := h.exists_slot hx
    refine ⟨slot, found, (h.clocked x slot found).resolve_right fun hidle => ?_, ht⟩
    rw [ht] at hidle
    cases hidle.2
  have hnodup : (w.queues.queue timer).Nodup := List.nodup_iff_count_le_one.2 fun x => by
    rw [h.queued]
    split <;> omega
  have hsplit : (TimerQueues.splitDue now (w.expiryIn timer) (w.queues.queue timer)).1 ++
      (TimerQueues.splitDue now (w.expiryIn timer) (w.queues.queue timer)).2 =
        w.queues.queue timer := by
    refine TimerQueues.splitDue_append now fun x hx => ?_
    obtain ⟨slot, found, -, ht⟩ := runs x hx
    simp [expiryIn, found, ht, Slot.expiry]
  rw [show w.endDue now timer =
    let due := TimerQueues.splitDue now (w.expiryIn timer) (w.queues.queue timer)
    let r := endTimers timer now due.1 { w with queues := w.queues.set timer due.2 }
    ({ r.1 with queues := r.1.queues.pushAll timer.afterRequest (Ended.requesting r.2) }, r.2)
    from rfl]
  generalize TimerQueues.splitDue now (w.expiryIn timer) (w.queues.queue timer) = split at hsplit ⊢
  obtain ⟨due, later⟩ := split
  simp only at hsplit ⊢
  rw [← hsplit] at hnodup
  obtain ⟨hdue, -, -⟩ := List.nodup_append.1 hnodup
  have ends := ends_endTimers (w := { w with queues := w.queues.set timer later }) timer now hdue
    fun x hx => runs x (hsplit ▸ List.mem_append_left later hx)
  generalize endTimers timer now due { w with queues := w.queues.set timer later } = r at *
  obtain ⟨w', ended⟩ := r
  refine ⟨h.count_queue_of_ends hsplit hdue ends, fun x new hs => ?_⟩
  by_cases hx : x ∈ due
  · obtain ⟨new', hnew, hrestarts⟩ := ends.restarts x hx
    obtain rfl := Option.some.inj (hnew.symm.trans hs)
    rcases hrestarts with ⟨-, -, hc⟩ | ⟨-, hm, htimer⟩
    · exact .inl hc
    · exact .inr ⟨List.mem_append_right idle hm, htimer⟩
  · rw [show w'.slots.get? x = w.slots.get? x from ends.other x hx] at hs
    exact (h.clocked x new hs).imp_right (And.imp_left (List.mem_append_left _ ·))

theorem endAllDue (h : w.Timed []) (now : Timestamp) :
    (w.endAllDue now).1.Timed (Ended.exhausted (w.endAllDue now).2) := by
  refine endAllDue_phases (P := fun v ended => v.Timed (Ended.exhausted ended)) now h ?_
  intro v ended timer timed
  simpa [Ended.exhausted] using timed.endDue now timer

theorem sweepAll (h : w.Timed []) (now : Timestamp) : (w.sweepAll now).1.Timed [] := by
  rcases hend : w.endAllDue now with ⟨w', ended⟩
  have hended := hend ▸ h.endAllDue now
  simp only [Window.sweepAll, hend]
  split
  · exact h
  · exact hended.loseAll.resolve

/-! ### Reading and reclaiming -/

/-- What is delivered was held, so no timer runs for it. -/
theorem deliver (h : w.Timed []) (hs : w.Sound) {count : Nat} (unread : w.commitTrail ≠ w.commitLead)
    (found : w.slots.get? w.commitTrail = some slot) (held : slot.state ≠ .lost)
    (whole : w.apduCount? w.commitTrail slot = some count) : (w.deliver count).1.Timed [] := by
  refine h.of_timerOf_eq ?_ (fun x => ?_) fun x new hnew => ?_
  · exact queues_commitSlots w (w.commitTrail.run count)
  · rw [timerOf, timerOf, get?_deliver]
    split
    · cases w.slots.get? x <;> rfl
    · rfl
  · rw [get?_deliver] at hnew
    split at hnew
    next hx =>
      obtain ⟨old, hold, rfl⟩ := Option.map_eq_some_iff.1 hnew
      have hdata := hs.hasData_of_mem_run unread found held whole hx hold
      have hsettled := (SlotState.hasData_iff.1 hdata).2
      exact .inl (.of_settled rfl ((h.clocked_of_get? hold).timer_eq_none hsettled))
    · exact h.clocked x new hnew

theorem takeReady (length room : Nat) (h : w.Timed []) (hs : w.Sound) :
    (takeReady room length w).1.Timed [] := by
  have draws := draws_takeReady room length w
  generalize Window.takeReady room length w = taken at draws ⊢
  induction draws with
  | done => exact h
  | pass unread found lost _ ih =>
    exact ih (h.of_slots_eq rfl rfl) ((Move.passLost unread found lost).sound hs)
  | cut => exact h.of_slots_eq rfl rfl
  | deliver unread found held whole _ ih =>
    exact ih (h.deliver hs unread found held whole)
      ((Move.deliver _ unread found held whole).sound hs)

theorem readReady (h : w.Timed []) (hs : w.Sound) (count : Nat) :
    (w.readReady count).1.Timed [] := by
  have hreported : ({ w with unreportedLosses := 0 } : Window).Timed [] := h.of_slots_eq rfl rfl
  exact (hreported.takeReady _ count hs.report).resolve

theorem retain (h : w.Timed []) (s : SeqNum) : (w.modify s Slot.retain).Timed [] := by
  refine h.modify (fun slot _ => slot.timer_retain) fun slot _ hc => ?_
  rcases slot.retain_cases with he | ⟨hcommitted, he⟩ <;> rw [he]
  · exact hc
  · exact .of_settled rfl (hc.timer_eq_none (by rw [hcommitted]; rfl))

theorem dropPayload (h : w.Timed []) (s : SeqNum) : (w.modify s Slot.dropPayload).Timed [] := by
  refine h.modify (fun slot _ => slot.timer_dropPayload) fun slot _ hc => ?_
  rcases slot.dropPayload_cases with he | ⟨-, he⟩ <;> rw [he]
  · exact hc
  · exact hc.congr rfl rfl

/-- The slot at the trail leaves after it was delivered or given up, so its timer has stopped. -/
theorem dropTrail (h : w.Timed []) (hs : w.Sound) (behind : 0 < w.place w.commitTrail) :
    w.dropTrail.Timed [] := by
  cases hpop : w.slots.popTrail? with
  | none =>
    have hsame : w.dropTrail = w := by rw [Window.dropTrail, hpop]
    rwa [hsame]
  | some popped =>
    obtain ⟨slot, slots⟩ := popped
    obtain ⟨found, -, -, -, hget⟩ := SlotRing.popTrail?_eq_some hpop
    have hdrop : w.dropTrail = { w with slots } := by rw [Window.dropTrail, hpop]
    have hsettled : slot.state.repairPending = false := by
      have hplace : w.place w.slots.trail = 0 := w.place_trail
      rcases (hs.slots found).settled (by omega) with hd | hl
      · revert hd
        cases slot.state <;> decide
      · rw [hl]
        rfl
    have hstopped : slot.timer = none := (h.clocked_of_get? found).timer_eq_none hsettled
    rw [hdrop]
    refine h.stop found (by rw [TimerQueues.unqueue, hstopped]) (fun x hx => ?_) (fun new hnew => ?_)
      fun x hx => .inr hx
    · exact (hget x).trans (if_neg hx)
    · cases ((hget _).trans (if_pos rfl)).symm.trans hnew

theorem releaseUpTo (limit : Nat) (h : w.Timed []) (hs : w.Sound) :
    (releaseUpTo limit w).1.Timed [] := by
  have releases := releases_releaseUpTo limit w
  generalize (Window.releaseUpTo limit w).1 = w' at releases ⊢
  induction releases with
  | done => exact h
  | hold => exact h.retain _
  | drop before unneeded later ih =>
    have behind := hs.trail_before_iff.1 before
    exact ih (h.dropTrail hs behind) (hs.reclaim behind)

theorem freeDelivered (h : w.Timed []) : w.freeDelivered.Timed [] := by
  unfold Window.freeDelivered
  generalize w.trail.upTo w.commitTrail = numbers
  induction numbers generalizing w with
  | nil => exact h
  | cons s numbers ih =>
    refine ih (w := w.freeSlot s) ?_
    unfold freeSlot
    split
    · exact h.retain s
    · exact h.dropPayload s

/-! ### All operations -/

theorem whileLive (h : w.Timed []) {α : Type} (gone : α) (op : Window → Window × α)
    (taken : (op w).1.Timed []) : (w.whileLive gone op).1.Timed [] := by
  unfold Window.whileLive
  split
  · exact h
  · exact taken

theorem forSession (h : w.Timed []) (tsi : Tsi) {op : Window → Window × Receipt}
    (taken : (op w).1.Timed []) : (w.forSession tsi op).1.Timed [] := by
  unfold Window.forSession
  split
  · exact h
  · exact h.whileLive _ op taken

theorem step (h : w.Timed []) (hs : w.Sound) {op : Op} (part : op.isPart) :
    (w.step op).1.Timed [] := by
  cases op with
  | push p now => exact h.forSession p.tsi (h.acceptData hs p none now)
  | pushRepair p source now => exact h.forSession p.tsi (h.acceptData hs p (some source) now)
  | pushParity p now => exact h.forSession p.tsi (h.acceptParity hs p now)
  | confirmNak s sent now =>
    exact h.whileLive _ (·.acceptNcf s sent now) (h.acceptNcf s sent now)
  | updateStatus trail lead size shift now =>
    exact h.whileLive _ (·.acceptStatus trail lead size shift now)
      (h.acceptStatus hs trail lead size shift now)
  | markLost s => exact h.whileLive _ (·.acceptLoss s) (h.acceptLoss s)
  | sweep now => exact h.whileLive _ (·.sweepAll now) (h.sweepAll now)
  | read count => exact h.whileLive _ (·.readReady count) (h.readReady hs count)
  | release => exact h.whileLive _ (·.releaseDelivered) (h.releaseUpTo _ hs)
  | free =>
    simp only [Window.step, free]
    split
    · exact h
    · exact h.freeDelivered
  | shutdown =>
    simp only [Window.step, shutdown]
    split
    · exact h
    · exact of_empty (SlotRing.get?_reset w.slots w.trail) rfl
  | repair => cases part

end Timed

/-- Slots and queues agree after every history of operations other than repairs. -/
theorem timed_run_parts (tsi : Tsi) (config : ValidConfig) {ops : List Op}
    (parts : ∀ op ∈ ops, op.isPart) : ((create tsi config).run ops).Timed [] := by
  induction ops using List.reverseRecOn with
  | nil => exact .of_empty (get?_create tsi config) rfl
  | append_singleton ops op ih =>
    have part := parts op (List.mem_append_right ops (List.mem_singleton_self op))
    have before := ih fun x hx => parts x (List.mem_append_left _ hx)
    rw [run_concat]
    cases hlive : ((create tsi config).run ops).isGone with
    | true => rwa [step_of_gone hlive part]
    | false => exact before.step (sound_run (sound_create tsi config) hlive).1 part

/-- A repair is a history of retransmissions, so it makes no difference. -/
theorem timed_run (tsi : Tsi) (config : ValidConfig) (ops : List Op) :
    ((create tsi config).run ops).Timed [] := by
  rw [← run_parts]
  exact timed_run_parts tsi config isPart_of_mem_parts

/-! ### Counting -/

/-- Every timer is one of the three. -/
theorem countP_timer {α : Type} (timer : α → Option Timer) (l : List α) :
    l.countP (timer · = some .backOff) + l.countP (timer · = some .waitNcf) +
      l.countP (timer · = some .waitData) = l.countP fun x => (timer x).isSome := by
  induction l with
  | nil => rfl
  | cons a l ih =>
    simp only [List.countP_cons]
    rcases timer a with _ | _ | _ | _ <;> simp <;> omega

/-- A queue has as many numbers as slots run its timer. -/
theorem Timed.length_queue (h : w.Timed []) (t : Timer) :
    (w.queues.queue t).length = w.slots.numbers.countP (w.timerOf · = some t) := by
  have hsize := w.slots.size_le_maxRing
  have hnodup : w.slots.numbers.Nodup := SeqNum.nodup_run _ (by omega)
  have hperm : (w.queues.queue t).Perm (w.slots.numbers.filter (w.timerOf · = some t)) := by
    refine List.perm_iff_count.2 fun x => ?_
    rw [h.queued]
    split
    next ht =>
      obtain ⟨slot, found, -⟩ := Option.bind_eq_some_iff.1 ht
      have hx : x ∈ w.slots.numbers := by
        obtain ⟨k, hk, rfl⟩ := SlotRing.contains_iff.1
          (SlotRing.isSome_get?_iff.1 (Option.isSome_iff_exists.2 ⟨slot, found⟩))
        exact SeqNum.mem_run.2 ⟨k, hk, rfl⟩
      exact (List.count_eq_one_of_mem (hnodup.filter _) (List.mem_filter.2 ⟨hx, by simpa using ht⟩)).symm
    next ht =>
      exact (List.count_eq_zero_of_not_mem fun hx => ht (by simpa using (List.mem_filter.1 hx).2)).symm
  rw [hperm.length_eq, List.countP_eq_length_filter]

/-- The queues together have one number for each missing packet. -/
theorem Timed.size_queues (h : w.Timed []) :
    w.queues.size = w.slots.toList.countP (·.state.repairPending) := by
  have hpending : w.slots.toList.countP (·.state.repairPending) =
      w.slots.numbers.countP fun x => (w.timerOf x).isSome := by
    rw [SlotRing.toList, List.countP_filterMap]
    refine List.countP_congr fun x _ => ?_
    cases hs : w.slots.get? x with
    | none => simp [timerOf_of_none hs]
    | some slot =>
      have hruns := (h.clocked_of_get? hs).runs
      simp [timerOf_of_get? hs, hruns, Option.isSome_iff_ne_none]
  rw [hpending, ← countP_timer w.timerOf, ← h.length_queue, ← h.length_queue, ← h.length_queue]
  rfl

/-- A queue stands only for missing packets, and for each of them once. -/
structure KeepsTime (w : Window) : Prop where
  /-- A packet is missing if and only if its slot runs a timer. -/
  runs : ∀ x slot, w.slots.get? x = some slot → (slot.state.repairPending ↔ slot.timer ≠ none)
  /-- Its number stands once in the queue of that timer and in no other. -/
  queued : ∀ x slot t, w.slots.get? x = some slot → slot.timer = some t →
    ∀ u, (w.queues.queue u).count x = if u = t then 1 else 0
  /-- No other number stands in a queue. -/
  owned : ∀ t, ∀ x ∈ w.queues.queue t, ∃ slot, w.slots.get? x = some slot ∧ slot.timer = some t
  size_eq : w.queues.size = w.slots.toList.countP (·.state.repairPending)
  size_le : w.queues.size ≤ w.capacity
  /-- A state that names a timer names the one that runs. -/
  named : ∀ x slot t, w.slots.get? x = some slot → slot.state = Timer.waiting t →
    slot.timer = some t

theorem Timed.keepsTime (h : w.Timed []) : w.KeepsTime where
  runs x slot hs := (h.clocked_of_get? hs).runs
  queued x slot t hs ht u := by
    rw [h.queued, timerOf_of_get? hs, ht]
    simp [eq_comm]
  owned t x hx := h.exists_slot hx
  size_eq := h.size_queues
  size_le := by
    rw [h.size_queues]
    have hlength : w.slots.toList.length ≤ w.slots.numbers.length := List.length_filterMap_le ..
    rw [SlotRing.numbers, SeqNum.length_run] at hlength
    exact (List.countP_le_length.trans hlength).trans w.slots.size_le
  named x slot t hs := (h.clocked_of_get? hs).named t

/-- The second packet of a group is missing, and parity for it is kept while the timer runs. -/
def parityHistory : Timer → List Op
  | .backOff => [smallPush 0 none 1, .pushParity ⟨smallTsi, 0, none, ⟨#[3]⟩⟩ 0]
  | .waitNcf => [smallPush 0 none 1, .pushParity ⟨smallTsi, 0, none, ⟨#[3]⟩⟩ 0, .sweep ⟨10⟩]
  | .waitData => [smallPush 0 none 1, .pushParity ⟨smallTsi, 0, none, ⟨#[3]⟩⟩ 0, .confirmNak 1 0 0]

/-- No missing packet is forgotten by the timers, whatever happened to the window. A slot that keeps
parity may run any of them. -/
theorem pending_iff_queued :
    (∀ tsi config ops, ((create tsi config).run ops).KeepsTime) ∧
      ∀ t, ∃ tsi config ops x slot, ((create tsi config).run ops).slots.get? x = some slot ∧
        slot.state = .haveParity ∧ slot.timer = some t := by
  refine ⟨fun tsi config ops => (timed_run tsi config ops).keepsTime, fun t => ?_⟩
  have hkept : ((create smallTsi smallConfig).run (parityHistory t)).slotIs 1 fun slot =>
      slot.state = .haveParity ∧ slot.timer = some t := by
    cases t <;> decide +kernel
  obtain ⟨slot, found, hslot⟩ := (Option.any_eq_true ..).1 hkept
  exact ⟨smallTsi, smallConfig, parityHistory t, 1, slot, found, by simpa using hslot⟩

end Window

end ReliableMulticast
