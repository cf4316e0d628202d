import ReliableMulticast.Proofs.Front
import ReliableMulticast.Proofs.Wanted

/-!
# Timers after a sweep

After a sweep the next expiry is later than the sweep. Ending what is due of one kind leaves a number
that is not due at the front of its queue (`TimerQueues.lt_of_mem_head_splitDue`), and the timers that
start stand behind it and end later, if the intervals move the time at all. What the sweep gives up then can only
take a number off a front. In a queue that is in the order of its expiry the next one is later still;
if time went back, a number that is due may come to the front.
-/

namespace ReliableMulticast

/-- A duration of a microsecond or more moves every moment but the last one on. -/
theorem Timestamp.lt_add {a : Timestamp} {d : Duration} (ha : a < last) (hd : 0 < d.micros) :
    a < a + d := by
  have hlast : a.micros.toNat < 18446744073709551615 := ha
  change a.micros.toNat < (a + d).micros.toNat
  rw [toNat_add]
  omega

namespace Window

variable {w w' : Window} {now : Timestamp} {timer t : Timer} {idle : List SeqNum} {x : SeqNum}
  {e : Timestamp}

/-! ### Fronts that are not due -/

/-- The number at the front of a queue is not due. -/
def Rests (w : Window) (now : Timestamp) (t : Timer) : Prop :=
  ∀ x ∈ (w.queues.queue t).head?, ∀ e ∈ w.expiryIn t x, now < e

/-- Nothing ends in a queue whose front is not due. -/
theorem Rests.endDue_eq (h : w.Rests now t) (timed : w.Timed idle) : w.endDue now t = (w, []) := by
  have split : TimerQueues.splitDue now (w.expiryIn t) (w.queues.queue t) = ([], w.queues.queue t) := by
    have fresh : ∀ x ∈ w.queues.queue t, (w.expiryIn t x).isSome := fun x => timed.mem_queue_iff.1
    unfold Rests at h
    cases hqueue : w.queues.queue t with
    | nil => rfl
    | cons x rest =>
      rw [hqueue] at h fresh
      obtain ⟨e, he⟩ := Option.isSome_iff_exists.1 (fresh x (List.mem_cons_self ..))
      simp only [TimerQueues.splitDue, he]
      exact if_neg (Nat.not_le_of_lt (h x rfl e he))
  simp only [endDue, TimerQueues.popDue, split, TimerQueues.set_queue, endTimers, Ended.requesting,
    List.filter_nil, List.map_nil, TimerQueues.pushAll_nil]

theorem endAllDue_of_rests (rests : ∀ t, w.Rests now t) (timed : w.Timed []) :
    w.endAllDue now = (w, []) := by
  rw [endAllDue_eq, (rests .backOff).endDue_eq timed, (rests .waitNcf).endDue_eq timed,
    (rests .waitData).endDue_eq timed]
  rfl

theorem Timed.lt_of_frontExpiry (timed : w.Timed idle) (rests : w.Rests now t)
    (hfront : w.frontExpiry t = some e) : now < e := by
  obtain ⟨x, hx, hexpiry⟩ := Option.bind_eq_some_iff.1 hfront
  obtain ⟨slot, found, runs⟩ := timed.exists_slot (List.mem_of_mem_head? hx)
  rw [found, Option.bind_some, Slot.expiry, runs] at hexpiry
  exact rests x hx e (expiryIn_eq_some_iff.2 ⟨slot, found, runs, Option.some.inj hexpiry⟩)

/-- If all fronts rest, the next expiry is later. -/
theorem Timed.lt_of_nextExpiry (timed : w.Timed []) (rests : ∀ t, w.Rests now t)
    (next : w.nextExpiry = some e) : now < e := by
  unfold nextExpiry at next
  split at next
  · cases next
  · rw [firstExpiry, List.min?_eq_some_iff] at next
    obtain ⟨t, hfront⟩ := mem_frontExpiries.1 next.1
    exact timed.lt_of_frontExpiry (rests t) hfront

/-! ### Ending what is due -/

theorem Restarted.lt_of_expiryIn (h : w.Restarted now x) (he : w.expiryIn t x = some e) : now < e := by
  obtain ⟨slot, found, later⟩ := h
  obtain ⟨other, hother, runs, rfl⟩ := expiryIn_eq_some_iff.1 he
  obtain rfl := Option.some.inj (found.symm.trans hother)
  exact later t runs

/-- The queue whose timers ended rests, and a queue that rested still does. -/
theorem Timed.rests_endDue (timed : w.Timed idle)
    (wait : now < now + w.config.1.wait timer.afterRequest) (h : t ≠ timer → w.Rests now t) :
    (w.endDue now timer).1.Rests now t := by
  intro x hx e he
  rw [timed.queue_endDue, List.head?_append, Option.mem_def, Option.or_eq_some_iff] at hx
  rcases hx with hkept | ⟨-, hadded⟩
  · have same := (timed.fires_endDue now timer).1.others x
      (timed.not_mem_due_of_kept (List.mem_of_mem_head? hkept))
    rw [expiryIn, same] at he
    split at hkept
    next ht =>
      subst ht
      exact TimerQueues.lt_of_mem_head_splitDue hkept e he
    next ht => exact h ht x hkept e he
  · split at hadded
    · obtain ⟨ended, hended, rfl⟩ := List.mem_map.1 (List.mem_of_mem_head? hadded)
      exact (timed.restarted_of_mem_endDue wait (List.mem_filter.1 hended).1).lt_of_expiryIn he
    · cases hadded

/-- All queues rest after all timers that are due ended. -/
theorem Timed.rests_endAllDue (timed : w.Timed []) (ncf : now < now + w.config.1.ncfWait)
    (data : now < now + w.config.1.dataWait) (t : Timer) : (w.endAllDue now).1.Rests now t := by
  have timed₁ := timed.endDue now .backOff
  have timed₂ := timed₁.endDue now .waitNcf
  have config₁ := (Keeps.of_frame_eq (w.frame_endDue now .backOff)).config
  have config₂ := (Keeps.of_frame_eq ((w.endDue now .backOff).1.frame_endDue now .waitNcf)).config
  simp only [endAllDue_eq]
  refine timed₂.rests_endDue (by rw [config₂, config₁]; exact data) fun notData => ?_
  refine timed₁.rests_endDue (by rw [config₁]; exact ncf) fun notNcf => ?_
  exact timed.rests_endDue ncf fun notBackOff => by cases t <;> contradiction

/-- A slot whose requests are used up runs no timer any more. -/
theorem Timed.stopped_of_exhausted (timed : w.Timed []) (hs : w.Sound)
    (hx : x ∈ Ended.exhausted (w.endAllDue now).2) : (w.endAllDue now).1.timerOf x = none := by
  refine endAllDue_induction (P := fun v ended => x ∈ Ended.exhausted ended → v.timerOf x = none) hs
    timed now nofun (fun v ended timer _ timed ih hx => ?_) hx
  cases hfound : v.slots.get? x with
  | none =>
    refine timerOf_of_none ?_
    rw [(timed.fires_endDue now timer).1.others x fun hdue => ?_, hfound]
    obtain ⟨slot, found, -⟩ := exists_of_mem_due hdue
    cases hfound.symm.trans found
  | some slot =>
    rw [Ended.exhausted_append, List.mem_append] at hx
    rcases timed.endDue_cases now timer hfound with ⟨runs, -, -, hnew, -, hexhausts⟩ | ⟨-, same, -, hnot⟩
    · rw [timerOf_of_get? hnew]
      have clocked := (timed.clocked x slot hfound).resolve_right fun h => by
        cases h.2.symm.trans runs
      have exhausted := hexhausts.1 (hx.resolve_left fun before => by
        cases (ih before).symm.trans ((timerOf_of_get? hfound).trans runs))
      rcases clocked.expire runs v.config.1 now with ⟨hsome, -⟩ | ⟨-, stopped⟩
      · rw [Option.isNone_iff_eq_none.1 exhausted] at hsome
        cases hsome
      · exact stopped
    · rw [timerOf_of_get? same, ← timerOf_of_get? hfound]
      exact ih (hx.resolve_right hnot)

/-- A number whose packet is missing after the timers ended was missing before. -/
theorem isMissing_of_endAllDue (timed : w.Timed []) (hs : w.Sound)
    (missing : (w.endAllDue now).1.IsMissing x) : w.IsMissing x := by
  refine endAllDue_induction (P := fun v _ => v.IsMissing x → w.IsMissing x) hs timed now id
    (fun v _ timer hs timed before missing => before ?_) missing
  obtain ⟨new, hnew, pending⟩ := missing
  obtain ⟨slot, found⟩ := SlotRing.exists_get?
    ((contains_of_frame_eq (v.frame_endDue now timer)).1 (contains_of_get? hnew))
  refine ⟨slot, found, ?_⟩
  rcases timed.endDue_cases now timer found with ⟨runs, -⟩ | ⟨-, same, -⟩
  · exact (hs.slots found).timer (by rw [runs]; exact Option.some_ne_none timer)
  · obtain rfl := Option.some.inj (same.symm.trans hnew)
    exact pending

/-! ### Giving up -/

theorem GoesOn.expiryIn (h : w.GoesOn w') (he : w'.expiryIn t x = some e) :
    w.expiryIn t x = some e := by
  obtain ⟨new, hnew, runs, rfl⟩ := expiryIn_eq_some_iff.1 he
  obtain ⟨old, hold, goes⟩ := h.slots hnew
  exact expiryIn_eq_some_iff.2 ⟨old, hold, (goes.expiry_eq runs).1, by rw [goes.expiryOf]⟩

/-- A queue that only lost numbers rests on, unless it lost its front. -/
theorem GoesOn.rests_or (h : w.GoesOn w') (timed : w.Timed idle) (rests : w.Rests now t) :
    w'.Rests now t ∨ ∃ x ∈ w.queues.queue t, x ∉ w'.queues.queue t := by
  have hsub := h.queues t
  have hnodup := timed.nodup_queue t
  unfold Rests at rests ⊢
  cases hqueue : w.queues.queue t with
  | nil =>
    rw [hqueue, List.sublist_nil] at hsub
    rw [hsub]
    exact .inl nofun
  | cons x rest =>
    rw [hqueue] at hsub hnodup rests
    rcases List.sublist_cons_iff.1 hsub with hrest | ⟨rest', hqueue', -⟩
    · exact .inr ⟨x, List.mem_cons_self .., fun hx => (List.nodup_cons.1 hnodup).1 (hrest.mem hx)⟩
    · rw [hqueue']
      exact .inl fun y hy e he => rests y hy e (h.expiryIn he)

theorem goesOn_sweepAll (hs : w.Sound) (timed : w.Timed []) (now : Timestamp) :
    (w.endAllDue now).1.GoesOn (w.sweepAll now).1 := by
  unfold sweepAll
  split
  next undefined =>
    have empty := (hs.blank (by simpa using undefined)).1
    refine ⟨fun hnew => (by cases (get?_of_empty empty _).symm.trans hnew), fun t => ?_⟩
    have hqueue : w.queues.queue t = [] := List.eq_nil_iff_forall_not_mem.2 fun x hx => by
      obtain ⟨slot, found, -⟩ := timed.exists_slot hx
      cases (get?_of_empty empty x).symm.trans found
    rw [hqueue]
    exact List.nil_sublist _
  · generalize w.endAllDue now = r
    exact ((onlyLoses_loseAll (Ended.exhausted r.2) r.1).trans (onlyLoses_resolve _)).goesOn

/-- A number leaves its queue after the timers ended only if its packet is given up with an APDU. -/
theorem lostInside_of_left (hs : w.Sound) (timed : w.Timed []) (bare : w.Bare)
    (queued : x ∈ (w.endAllDue now).1.queues.queue t) (left : x ∉ (w.sweepAll now).1.queues.queue t) :
    w.IsMissing x ∧ w.LostInside (w.sweepAll now).1 x := by
  have ended := timed.endAllDue now
  obtain ⟨slot, found, runs⟩ := ended.exists_slot queued
  have clocked := (ended.clocked x slot found).resolve_right fun idle => by
    cases idle.2.symm.trans runs
  have pending : slot.state.repairPending :=
    clocked.runs.2 (by rw [runs]; exact Option.some_ne_none t)
  have spared : x ∉ Ended.exhausted (w.endAllDue now).2 := fun hx => by
    cases (timed.stopped_of_exhausted hs hx).symm.trans ((timerOf_of_get? found).trans runs)
  refine ⟨isMissing_of_endAllDue timed hs ⟨slot, found, pending⟩, ?_⟩
  refine (get?_sweepAll_of_pending hs timed bare found pending spared).resolve_left fun same => left ?_
  refine List.count_pos_iff.1 ?_
  rw [(timed.sweepAll now).queued, if_pos ((timerOf_of_get? same).trans runs)]
  exact Nat.one_pos

/-- In a queue that is in order nothing is due if its front is not. -/
theorem Punctual.lt_of_rests (h : w.Punctual now) (timed : w.Timed idle) (rests : w.Rests now t)
    (he : w.expiryIn t x = some e) : now < e := by
  obtain ⟨d, hfront, hle⟩ := h.exists_frontExpiry timed he
  exact Nat.lt_of_lt_of_le (timed.lt_of_frontExpiry rests hfront) hle

/-- All queues rest after a sweep, unless a packet was given up with an APDU. -/
theorem rests_sweepAll_or (hs : w.Sound) (timed : w.Timed []) (bare : w.Bare)
    (rests : ∀ t, (w.endAllDue now).1.Rests now t) : (∀ t, (w.sweepAll now).1.Rests now t) ∨
      ∃ x, w.IsMissing x ∧ w.LostInside (w.sweepAll now).1 x := by
  have goes := goesOn_sweepAll hs timed now
  have ended := timed.endAllDue now
  by_cases left : ∃ t x, x ∈ (w.endAllDue now).1.queues.queue t ∧
      x ∉ (w.sweepAll now).1.queues.queue t
  · obtain ⟨t, x, queued, left⟩ := left
    exact .inr ⟨x, lostInside_of_left hs timed bare queued left⟩
  · refine .inl fun t => (goes.rests_or ended (rests t)).resolve_right fun ⟨x, queued, hx⟩ => ?_
    exact left ⟨t, x, queued, hx⟩

/-- In queues that are in order, nothing is due whatever was given up. -/
theorem Punctual.rests_sweepAll (h : w.Punctual now) (hs : w.Sound) (timed : w.Timed [])
    (rests : ∀ t, (w.endAllDue now).1.Rests now t) (t : Timer) : (w.sweepAll now).1.Rests now t := by
  intro x _ e he
  have before := (goesOn_sweepAll hs timed now).expiryIn he
  exact (h.endAllDue hs timed).lt_of_rests (timed.endAllDue now) (rests t) before

/-! ### Sweeping again -/

/-- A sweep changes nothing if no front is due and nothing is left to resolve. -/
theorem AtRest.sweepAll_eq (h : w.AtRest) (timed : w.Timed []) (rests : ∀ t, w.Rests now t) :
    w.sweepAll now = (w, []) := by
  unfold Window.sweepAll
  rw [endAllDue_of_rests rests timed]
  split
  · rfl
  · exact congrArg (·, []) h.resolve_eq

/-- The timers of a window are set for a time after `now`, and a sweep finds nothing to do. -/
structure Rearmed (w : Window) (now : Timestamp) : Prop where
  later : ∀ e, w.nextExpiry = some e → now < e
  idle : w.step (.sweep now) = (w, .naks [])

theorem rearmed_of_rests (timed : w.Timed []) (live : w.isGone = false) (atRest : w.AtRest)
    (rests : ∀ t, w.Rests now t) : w.Rearmed now where
  later := fun _ next => timed.lt_of_nextExpiry rests next
  idle := by rw [step_sweep live, atRest.sweepAll_eq timed rests]

/-- If the intervals are a microsecond or more, a sweep asks for no packet twice and sets all timers for
later, so that a second sweep at the same time does nothing. The exception is a window for which time
went back: its queues are not in order, and a number that is due may be left at the front when the one
before it is given up with an APDU. -/
theorem rearmed_after_sweep (tsi : Tsi) (config : ValidConfig) (ops : List Op)
    (live : ((create tsi config).run ops).isGone = false) (now : Timestamp)
    (early : now < .last) (ncf : 0 < config.1.ncfWait.micros) (data : 0 < config.1.dataWait.micros) :
    let w := (create tsi config).run ops
    (w.step (.sweep now)).2.asked.Nodup ∧
      ((w.step (.sweep now)).1.Rearmed now ∨ ¬ Chronological (ops ++ [.sweep now]) ∧
        ∃ x, w.IsMissing x ∧ w.LostInside (w.step (.sweep now)).1 x) := by
  intro w
  obtain ⟨hs, hkeeps⟩ := sound_run (sound_create tsi config) live
  have timed : w.Timed [] := timed_run tsi config ops
  have bare : w.Bare := bare_run tsi config live
  have hconfig : w.config = config := hkeeps.config
  have stays : Op.sweep now ≠ .shutdown := nofun
  obtain ⟨_, hmoves, -⟩ := step_spec_of_ne hs live rfl stays
  have live' := hmoves.keeps.isGone.trans live
  rw [← hconfig] at ncf data
  have ncfLater := Timestamp.lt_add early ncf
  have rests := timed.rests_endAllDue ncfLater (Timestamp.lt_add early data)
  have hstep : (w.step (.sweep now)).1 = (w.sweepAll now).1 := congrArg Prod.fst (step_sweep live now)
  have rearmed : (∀ t, (w.sweepAll now).1.Rests now t) → (w.step (.sweep now)).1.Rearmed now := by
    rw [hstep] at live' ⊢
    exact rearmed_of_rests (timed.sweepAll now) live' (atRest_sweepAll hs now)
  refine ⟨?_, ?_⟩
  · rw [asked_sweep timed hs live]
    exact (timed.nodup_endAllDue ncfLater).sublist (List.filter_sublist.map _)
  by_cases chronological : Chronological (ops ++ [.sweep now])
  · rw [Chronological, List.filterMap_append, List.pairwise_append] at chronological
    have late : ∀ t ∈ ops.filterMap Op.time?, t ≤ now :=
      fun t ht => chronological.2.2 t ht now (List.mem_singleton_self now)
    have punctual : w.Punctual now := punctual_run tsi config chronological.1 late
    exact .inl (rearmed (punctual.rests_sweepAll hs timed rests))
  · rcases rests_sweepAll_or hs timed bare rests with rests | lost
    · exact .inl (rearmed rests)
    · rw [hstep]
      exact .inr ⟨chronological, lost⟩

theorem rearmed_after_sweep_small :
    let w := (create smallTsi patientConfig).run gapHistory
    w.isGone = false ∧ (⟨12⟩ : Timestamp) < .last ∧ 0 < patientConfig.1.ncfWait.micros ∧
      0 < patientConfig.1.dataWait.micros ∧ (w.step (.sweep ⟨12⟩)).2.asked = [1] ∧
      (w.step (.sweep ⟨12⟩)).1.nextExpiry = some ⟨15⟩ ∧ (w.step (.sweep ⟨12⟩)).1.Rearmed ⟨12⟩ := by
  intro w
  have live : w.isGone = false := by decide +kernel
  have chronological : Chronological (gapHistory ++ [.sweep ⟨12⟩]) := by
    unfold Chronological
    decide +kernel
  obtain ⟨-, rearmed⟩ := rearmed_after_sweep smallTsi patientConfig gapHistory live ⟨12⟩ (by decide)
    (by decide) (by decide)
  exact ⟨live, by decide, by decide, by decide, by decide +kernel, by decide +kernel,
    rearmed.resolve_right fun back => back.1 chronological⟩

/-- The intervals of the small window are positive, but too short to move the time. A packet that is
missing is asked for twice in one sweep, is still due after it, and is asked for again at once. -/
theorem asked_twice :
    let w := (create smallTsi smallConfig).run [smallPush 0 none 1, smallPush 2 none 2]
    w.isGone = false ∧ (w.step (.sweep 0)).2.asked = [1, 1] ∧
      (w.step (.sweep 0)).1.nextExpiry = some 0 ∧
      ((w.step (.sweep 0)).1.step (.sweep 0)).2.asked = [1] := by
  decide +kernel

end Window

end ReliableMulticast
