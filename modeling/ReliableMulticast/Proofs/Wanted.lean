import ReliableMulticast.Proofs.Deadlines

/-!
# What a sweep asks for

A sweep asks for packets whose timers ended and only then gives up what is exhausted and resolves the
front, so the question is what becomes of the packets it asks for. They are still missing, with two
exceptions. The front may give up an APDU around one of them (`LostInside`). And a packet is asked for
and exhausted in one sweep if the timer that its request starts ends at once: a timer that starts in a
sweep is otherwise not due before a later one (`Restarted.not_mem_due`), so each number ends a timer
once (`Timed.nodup_endAllDue`).
-/

namespace ReliableMulticast.Window

variable {w : Window} {now : Timestamp} {timer : Timer} {idle : List SeqNum} {x : SeqNum} {e : Ended}
  {ended : List Ended}

/-! ### Timers that start in a sweep -/

/-- The slot of the number runs no timer that is due. -/
def Restarted (w : Window) (now : Timestamp) (x : SeqNum) : Prop :=
  ∃ slot, w.slots.get? x = some slot ∧ ∀ t, slot.timer = some t → now < slot.expiryOf t

theorem Restarted.not_mem_due (h : w.Restarted now x) (timer : Timer) : x ∉ w.due now timer := by
  obtain ⟨slot, found, later⟩ := h
  intro hx
  obtain ⟨old, hold, runs, due⟩ := exists_of_mem_due hx
  obtain rfl := Option.some.inj (found.symm.trans hold)
  exact Nat.not_le_of_lt (later timer runs) due

theorem Restarted.endDue (h : w.Restarted now x) (timed : w.Timed idle) (timer : Timer) :
    (w.endDue now timer).1.Restarted now x := by
  obtain ⟨slot, found, later⟩ := h
  refine ⟨slot, ?_, later⟩
  rw [(timed.fires_endDue now timer).1.others x (Restarted.not_mem_due ⟨slot, found, later⟩ timer), found]

/-- A slot whose timer ended runs none from then on, or one that is not due yet. -/
theorem Timed.restarted_of_mem_endDue (timed : w.Timed idle)
    (wait : now < now + w.config.1.wait timer.afterRequest) (he : e ∈ (w.endDue now timer).2) :
    (w.endDue now timer).1.Restarted now e.sequence := by
  have hdue := timed.mem_due_of_mem_endDue he
  obtain ⟨slot, found, -⟩ := exists_of_mem_due hdue
  refine ⟨(slot.expire w.config.1 now timer).1, ?_, fun t runs => ?_⟩
  · rw [(timed.fires_endDue now timer).1.slots _ hdue, found]
    rfl
  · rcases slot.timer_expire w.config.1 now timer with hnone | ⟨hnext, hexpiry⟩
    · cases hnone.symm.trans runs
    · obtain rfl := Option.some.inj (hnext.symm.trans runs)
      rwa [hexpiry]

theorem Timed.restarted_append (timed : w.Timed idle) (timer : Timer)
    (wait : now < now + w.config.1.wait timer.afterRequest)
    (restarted : ∀ e ∈ ended, w.Restarted now e.sequence) :
    ∀ e ∈ ended ++ (w.endDue now timer).2, (w.endDue now timer).1.Restarted now e.sequence := by
  intro e he
  rcases List.mem_append.1 he with he | he
  · exact (restarted e he).endDue timed timer
  · exact timed.restarted_of_mem_endDue wait he

/-- What restarted in a sweep is not among what ends next. -/
theorem Timed.nodup_append (timed : w.Timed idle) (timer : Timer)
    (restarted : ∀ e ∈ ended, w.Restarted now e.sequence) (once : (ended.map (·.sequence)).Nodup) :
    ((ended ++ (w.endDue now timer).2).map (·.sequence)).Nodup := by
  have sequences := (timed.fires_endDue now timer).1.sequences_filter fun _ => true
  rw [List.filter_true] at sequences
  rw [List.map_append, List.nodup_append]
  refine ⟨once, ?_, ?_⟩
  · rw [sequences]
    exact (timed.nodup_due now timer).filter _
  · rintro a ha b hb rfl
    obtain ⟨e, he, rfl⟩ := List.mem_map.1 ha
    obtain ⟨e', he', hsame⟩ := List.mem_map.1 hb
    exact (restarted e he).not_mem_due timer (hsame ▸ timed.mem_due_of_mem_endDue he')

theorem endAllDue_eq (w : Window) (now : Timestamp) :
    let first := w.endDue now .backOff
    let second := first.1.endDue now .waitNcf
    let third := second.1.endDue now .waitData
    w.endAllDue now = (third.1, first.2 ++ second.2 ++ third.2) := by
  simp only [endAllDue]

/-- Each number ends one timer in a sweep, unless the wait for a confirmation ends as it begins. -/
theorem Timed.nodup_endAllDue (timed : w.Timed []) (wait : now < now + w.config.1.ncfWait) :
    ((w.endAllDue now).2.map (·.sequence)).Nodup := by
  have timed₁ := timed.endDue now .backOff
  have timed₂ := timed₁.endDue now .waitNcf
  have config₁ := (Keeps.of_frame_eq (w.frame_endDue now .backOff)).config
  -- The slots of the first two kinds wait for a confirmation then, those of the last kind end last.
  have none : ∀ e ∈ ([] : List Ended), w.Restarted now e.sequence := nofun
  have first := timed.restarted_append .backOff wait none
  have once := timed.nodup_append .backOff none List.nodup_nil
  rw [List.nil_append] at first once
  have second := timed₁.restarted_append .waitNcf (by rw [config₁]; exact wait) first
  rw [endAllDue_eq]
  exact timed₂.nodup_append .waitData second (timed₁.nodup_append .waitNcf first once)

/-- A packet that is requested is not exhausted in the same sweep. -/
theorem Timed.not_exhausted_of_requested (timed : w.Timed []) (wait : now < now + w.config.1.ncfWait)
    (requested : x ∈ Ended.requesting (w.endAllDue now).2) :
    x ∉ Ended.exhausted (w.endAllDue now).2 := by
  intro exhausted
  obtain ⟨a, ha, rfl⟩ := List.mem_map.1 requested
  obtain ⟨b, hb, hsame⟩ := List.mem_map.1 exhausted
  obtain ⟨ha, hsome⟩ := List.mem_filter.1 ha
  obtain ⟨hb, hnone⟩ := List.mem_filter.1 hb
  obtain rfl := List.inj_on_of_nodup_map (timed.nodup_endAllDue wait) hb ha hsame
  rw [Option.isNone_iff_eq_none.1 hnone] at hsome
  cases hsome

/-! ### Requests -/

/-- What a sweep asks for is still missing after it, unless the same sweep gave it up: with an APDU
around it, or because the wait for a confirmation that its request started ended at once. -/
theorem asked_still_missing (tsi : Tsi) (config : ValidConfig) (ops : List Op)
    (live : ((create tsi config).run ops).isGone = false) (now : Timestamp) :
    let w := (create tsi config).run ops
    ∀ x ∈ (w.step (.sweep now)).2.asked,
      (w.step (.sweep now)).1.IsMissing x ∨ w.LostInside (w.step (.sweep now)).1 x ∨
        now + config.1.ncfWait ≤ now ∧ (w.step (.sweep now)).1.slotIs x (·.state = .lost) := by
  intro w x hx
  obtain ⟨hs, hkeeps⟩ := sound_run (sound_create tsi config) live
  have timed : w.Timed [] := timed_run tsi config ops
  have bare : w.Bare := bare_run tsi config live
  rw [asked_sweep timed hs live] at hx
  rw [show (w.step (.sweep now)).1 = (w.sweepAll now).1 from congrArg Prod.fst (step_sweep live now)]
  obtain ⟨e, he, rfl⟩ := List.mem_map.1 hx
  obtain ⟨slot, found, pending⟩ :=
    isMissing_of_mem_endAllDue hs timed now e (List.mem_filter.1 he).1
  by_cases exhausted : e.sequence ∈ Ended.exhausted (w.endAllDue now).2
  · refine .inr (.inr ⟨?_, lost_of_exhausted hs timed bare exhausted⟩)
    refine Nat.not_lt.1 fun wait => timed.not_exhausted_of_requested ?_ hx exhausted
    rwa [show w.config = config from hkeeps.config]
  · rcases get?_sweepAll_of_pending hs timed bare found pending exhausted with same | lost
    · exact .inl ⟨slot, same, pending⟩
    · exact .inr (.inl lost)

theorem asked_still_missing_small :
    let w := (create smallTsi patientConfig).run gapHistory
    w.isGone = false ∧ (w.step (.sweep ⟨12⟩)).2.asked = [1] ∧
      ((w.step (.sweep ⟨12⟩)).1.IsMissing 1 ∨ w.LostInside (w.step (.sweep ⟨12⟩)).1 1 ∨
        (⟨12⟩ : Timestamp) + patientConfig.1.ncfWait ≤ ⟨12⟩ ∧
          (w.step (.sweep ⟨12⟩)).1.slotIs 1 (·.state = .lost)) := by
  intro w
  have live : w.isGone = false := by decide +kernel
  have asked : (w.step (.sweep ⟨12⟩)).2.asked = [1] := by decide +kernel
  exact ⟨live, asked, asked_still_missing smallTsi patientConfig gapHistory live ⟨12⟩ 1
    (asked ▸ List.mem_singleton_self 1)⟩

/-- No groups, and a request is not repeated for want of a confirmation. -/
def hastyConfig : ValidConfig :=
  ⟨{ patientConfig.1 with groupSize := 1, capacity := 8, maxNcfRetries := 0 }, by decide⟩

/-- Two packets of an APDU are missing: one was requested, the other is found missing later. -/
def brokenHistory : List Op :=
  [smallPush 0 (some ⟨0, 0, 5⟩) 1, smallPush 2 (some ⟨0, 2, 5⟩) 2, .sweep ⟨10⟩,
    .push ⟨smallTsi, 4, some ⟨0, 4, 5⟩, ⟨#[3]⟩⟩ ⟨25⟩]

/-- The requests for the first of them are used up in the same sweep that asks for the other, so the
sweep gives up the APDU and asks for a part of it. -/
theorem asked_for_lost :
    let w := (create smallTsi hastyConfig).run brokenHistory
    w.isGone = false ∧ (w.step (.sweep ⟨35⟩)).2.asked = [3] ∧
      (w.step (.sweep ⟨35⟩)).1.slotIs 3 (·.state = .lost) := by
  decide +kernel

end ReliableMulticast.Window
