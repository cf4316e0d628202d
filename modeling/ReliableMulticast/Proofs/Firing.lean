import Mathlib.Data.List.Perm.Subperm
import ReliableMulticast.Proofs.Stillness

/-!
# Timers that end in a sweep

A sweep goes over the three queues one after the other and ends the timers that are `due` at their
fronts. Each number that is due has a slot of its own, so what becomes of the slots and which
requests they send is told slot by slot (`Fires`, `Timed.fires_endDue`). Joining requests changes
nothing about what is asked for (`expand_coalesce`).
-/

namespace ReliableMulticast

/-! ### Joined requests -/

namespace NakRequest

variable {s : SeqNum} {stage : NakStage} {r : NakRequest} {due : List (SeqNum × NakStage)}

theorem sequences_eq_run (few : r.count ≤ 2147483648) : r.sequences = r.first.run r.count := by
  have hgap : r.first.gap r.last.next = r.count := SeqNum.gap_add_right (by
    change r.count < _
    omega)
  rw [sequences, SeqNum.upTo_eq_run (hgap ▸ few), hgap]

theorem sequences_single (s : SeqNum) (stage : NakStage) : (single s stage).sequences = [s] := by
  have hcount : (single s stage).count = 1 := by rw [count, single, SeqNum.gap_self]
  rw [sequences_eq_run (by omega), hcount]
  rfl

/-- A request that is continued to the front asks for one more number. -/
theorem count_extend (follows : s.next = r.first) (few : r.count < 4294967295) :
    { r with first := s }.count = r.count + 1 := by
  have hlast : s + (1 + r.first.gap r.last) = r.last := by
    rw [← SeqNum.add_add, show s + 1 = r.first from follows, SeqNum.add_gap]
  unfold count at few ⊢
  rw [← hlast, SeqNum.gap_add _ (by omega), hlast, Nat.add_comm 1]

theorem count_extend_le (follows : s.next = r.first) : { r with first := s }.count ≤ r.count + 1 := by
  have hs := s.toNat_lt
  have hlast := r.last.toNat_lt
  unfold count
  rw [← follows, SeqNum.next]
  simp only [SeqNum.gap_eq, SeqNum.toNat_add]
  omega

theorem sequences_extend (follows : s.next = r.first) (few : r.count < 2147483648) :
    { r with first := s }.sequences = s :: r.sequences := by
  have hcount := count_extend follows (by omega)
  rw [sequences_eq_run (by omega), hcount, sequences_eq_run (by omega), SeqNum.run, follows]

/-- A request asks for no more numbers than were due in its stage. -/
theorem count_le_of_mem_coalesce :
    ∀ r ∈ coalesce due, r.count ≤ due.countP (·.2 = r.stage) := by
  induction due with
  | nil => exact fun r hr => absurd hr List.not_mem_nil
  | cons head rest ih =>
    obtain ⟨s, stage⟩ := head
    have hcons : ∀ t, ((s, stage) :: rest).countP (·.2 = t) =
        rest.countP (·.2 = t) + if stage = t then 1 else 0 := by
      intro t
      simp [List.countP_cons]
    have alone : (single s stage).count ≤ ((s, stage) :: rest).countP (·.2 = stage) := by
      rw [count, single, SeqNum.gap_self, hcons, if_pos rfl]
      exact Nat.le_add_left ..
    have later : ∀ r ∈ coalesce rest, r.count ≤ ((s, stage) :: rest).countP (·.2 = r.stage) := by
      intro r hr
      rw [hcons]
      exact (ih r hr).trans (Nat.le_add_right ..)
    rw [coalesce]
    generalize coalesce rest = requests at ih later ⊢
    cases requests with
    | nil =>
      intro r hr
      obtain rfl := List.mem_singleton.1 hr
      exact alone
    | cons r requests =>
      rw [prepend]
      split
      next joins =>
        refine List.forall_mem_cons.2 ⟨?_, fun r' hr' => later r' (List.mem_cons_of_mem r hr')⟩
        have := ih r (List.mem_cons_self ..)
        have := count_extend_le joins.2
        change _ ≤ ((s, stage) :: rest).countP (·.2 = r.stage)
        rw [hcons, if_pos joins.1.symm]
        omega
      · exact List.forall_mem_cons.2 ⟨alone, later⟩

/-- The numbers that a request asks for, each with the stage it is asked for in. -/
def expand (r : NakRequest) : List (SeqNum × NakStage) := r.sequences.map (·, r.stage)

/-- Joined requests ask for what they were made of, in the same order, as long as no stage has more
numbers than half of the number space. -/
theorem expand_coalesce (few : ∀ stage, due.countP (·.2 = stage) ≤ 2147483648) :
    (coalesce due).flatMap expand = due := by
  induction due with
  | nil => rfl
  | cons head rest ih =>
    obtain ⟨s, stage⟩ := head
    have hcons : ∀ t, ((s, stage) :: rest).countP (·.2 = t) =
        rest.countP (·.2 = t) + if stage = t then 1 else 0 := by
      intro t
      simp [List.countP_cons]
    have hcount : ∀ r ∈ coalesce rest, r.count ≤ rest.countP (·.2 = r.stage) :=
      count_le_of_mem_coalesce
    have alone : (single s stage).expand = [(s, stage)] := by
      rw [expand, sequences_single]
      rfl
    have later := ih fun t => (Nat.le_add_right ..).trans (hcons t ▸ few t)
    rw [coalesce]
    generalize coalesce rest = requests at hcount later ⊢
    cases requests with
    | nil => rw [prepend, List.flatMap_cons, alone, later, List.singleton_append]
    | cons r requests =>
      rw [prepend]
      split
      next joins =>
        obtain ⟨rfl, follows⟩ := joins
        have hr := hcount r (List.mem_cons_self ..)
        have hfew := few r.stage
        rw [hcons, if_pos rfl] at hfew
        have extended : { r with first := s }.expand = (s, r.stage) :: r.expand := by
          rw [expand, sequences_extend follows (by omega)]
          rfl
        rw [List.flatMap_cons, extended, List.cons_append, ← List.flatMap_cons, later]
      · rw [List.flatMap_cons, alone, later, List.singleton_append]

theorem sequences_coalesce (few : ∀ stage, due.countP (·.2 = stage) ≤ 2147483648) :
    (coalesce due).flatMap sequences = due.map (·.1) := by
  have numbers : sequences = fun r => r.expand.map (·.1) := by
    funext r
    simp [expand, Function.comp_def]
  rw [numbers, ← List.map_flatMap, expand_coalesce few]

end NakRequest

/-! ### What is due -/

/-- The stage of the requests that a timer makes due. -/
def Timer.stage : Timer → NakStage
  | .backOff => .initial
  | .waitNcf => .ncfRetry
  | .waitData => .dataRetry

theorem Slot.stage_expire (slot : Slot) (c : WindowConfig) (now : Timestamp) (timer : Timer) :
    (slot.expire c now timer).2 = none ∨ (slot.expire c now timer).2 = some timer.stage := by
  cases timer with
  | backOff => exact .inr rfl
  | waitNcf =>
    rw [expire, expireNcf]
    split
    · exact .inl rfl
    · exact .inr rfl
  | waitData =>
    rw [expire, expireData]
    split
    · exact .inl rfl
    · exact .inr rfl

theorem Slot.sequence_expire (slot : Slot) (c : WindowConfig) (now : Timestamp) (timer : Timer) :
    (slot.expire c now timer).1.sequence = slot.sequence := by
  cases timer with
  | backOff => rfl
  | waitNcf =>
    rw [expire, expireNcf]
    split <;> rfl
  | waitData =>
    rw [expire, expireData]
    split <;> rfl

namespace Ended

theorem requesting_append (ended more : List Ended) :
    requesting (ended ++ more) = requesting ended ++ requesting more := by
  rw [requesting, List.filter_append, List.map_append, requesting, requesting]

theorem exhausted_append (ended more : List Ended) :
    exhausted (ended ++ more) = exhausted ended ++ exhausted more := by
  rw [exhausted, List.filter_append, List.map_append, exhausted, exhausted]

/-- The requests that are due are those of the numbers that send one. -/
theorem map_nak? (ended : List Ended) :
    (ended.filterMap nak?).map (·.1) = requesting ended := by
  induction ended with
  | nil => rfl
  | cons e ended ih =>
    obtain ⟨x, stage⟩ := e
    cases stage with
    | none => exact ih
    | some stage => exact congrArg (List.cons x) ih

end Ended

namespace Window

variable {w : Window} {now : Timestamp} {timer : Timer} {idle : List SeqNum} {x : SeqNum} {slot : Slot}

/-- The numbers whose timers of one kind end in a sweep. -/
def due (w : Window) (now : Timestamp) (timer : Timer) : List SeqNum :=
  (TimerQueues.splitDue now (w.expiryIn timer) (w.queues.queue timer)).1

/-- The numbers whose timers of one kind go on. -/
def later (w : Window) (now : Timestamp) (timer : Timer) : List SeqNum :=
  (TimerQueues.splitDue now (w.expiryIn timer) (w.queues.queue timer)).2

/-- What the end of its timer makes of the slot of a number. -/
def endedAt? (w : Window) (now : Timestamp) (timer : Timer) (x : SeqNum) : Option Ended :=
  (w.slots.get? x).map fun slot => ⟨x, (slot.expire w.config.1 now timer).2⟩

theorem Timed.nodup_queue (h : w.Timed idle) (t : Timer) : (w.queues.queue t).Nodup :=
  List.nodup_iff_count_le_one.2 fun x => by
    rw [h.queued]
    split <;> omega

theorem Timed.due_append_later (h : w.Timed idle) (now : Timestamp) (timer : Timer) :
    w.due now timer ++ w.later now timer = w.queues.queue timer := by
  refine TimerQueues.splitDue_append now fun x hx => ?_
  obtain ⟨slot, found, ht⟩ := h.exists_slot hx
  simp [expiryIn, found, ht, Slot.expiry]

theorem Timed.nodup_due (h : w.Timed idle) (now : Timestamp) (timer : Timer) :
    (w.due now timer).Nodup :=
  (List.nodup_append.1 (h.due_append_later now timer ▸ h.nodup_queue timer)).1

/-- What is due runs the timer, which ends at `now` or before. -/
theorem exists_of_mem_due (hx : x ∈ w.due now timer) :
    ∃ slot, w.slots.get? x = some slot ∧ slot.timer = some timer ∧ slot.expiryOf timer ≤ now := by
  obtain ⟨e, he, hle⟩ := TimerQueues.le_of_mem_splitDue hx
  unfold expiryIn at he
  split at he
  · cases he
  next slot found =>
    split at he
    next ht =>
      rw [Slot.expiry, ht] at he
      obtain rfl := Option.some.inj he
      exact ⟨slot, found, ht, hle⟩
    · cases he

/-! ### One kind of timer -/

/-- The timers of the numbers that are due ended, each in its slot, and no other slot changed. -/
structure Fires (w : Window) (now : Timestamp) (timer : Timer) (due : List SeqNum) (w' : Window)
    (ended : List Ended) : Prop where
  slots : ∀ x ∈ due, w'.slots.get? x =
    (w.slots.get? x).map fun slot => (slot.expire w.config.1 now timer).1
  others : ∀ x ∉ due, w'.slots.get? x = w.slots.get? x
  ended : ended = due.filterMap (w.endedAt? now timer)

theorem fires_endTimers (now : Timestamp) (timer : Timer) {due : List SeqNum} (hnodup : due.Nodup)
    (w : Window) :
    w.Fires now timer due (endTimers timer now due w).1 (endTimers timer now due w).2 := by
  induction due generalizing w with
  | nil => exact ⟨fun x hx => absurd hx List.not_mem_nil, fun _ _ => rfl, rfl⟩
  | cons s due ih =>
    obtain ⟨hs, hnodup⟩ := List.nodup_cons.1 hnodup
    have other : ∀ x ∈ due, x ≠ s := by
      rintro x hx rfl
      exact hs hx
    cases found : w.slots.get? s with
    | none =>
      obtain ⟨hslots, hothers, hended⟩ := ih hnodup w
      simp only [endTimers, found]
      refine ⟨fun x hx => ?_, fun x hx => hothers x fun hd => hx (List.mem_cons_of_mem s hd), ?_⟩
      · rcases List.mem_cons.1 hx with rfl | hx
        · rw [hothers x hs, found]
          rfl
        · exact hslots x hx
      · rw [hended, List.filterMap_cons, endedAt?, found, Option.map_none]
    | some slot =>
      obtain ⟨hslots, hothers, hended⟩ := ih hnodup
        (w.modify s fun _ => (slot.expire w.config.1 now timer).1)
      have hself : { (slot.expire w.config.1 now timer).1 with sequence := slot.sequence } =
          (slot.expire w.config.1 now timer).1 := by
        rw [← slot.sequence_expire w.config.1 now timer]
      simp only [endTimers, found]
      refine ⟨fun x hx => ?_, fun x hx => ?_, ?_⟩
      · rcases List.mem_cons.1 hx with rfl | hx
        · rw [hothers x hs, get?_modify, if_pos rfl, found]
          exact congrArg some hself
        · rw [hslots x hx, get?_modify, if_neg (other x hx)]
          rfl
      · rw [List.mem_cons, not_or] at hx
        rw [hothers x hx.2, get?_modify, if_neg hx.1]
      · rw [hended, List.filterMap_cons]
        simp only [endedAt?, found, Option.map_some]
        refine congrArg (List.cons _) (List.filterMap_congr fun x hx => ?_)
        rw [endedAt?, get?_modify, if_neg (other x hx)]
        rfl

theorem queues_endTimers (due : List SeqNum) (w : Window) :
    (endTimers timer now due w).1.queues = w.queues := by
  induction due generalizing w with
  | nil => rfl
  | cons s due ih =>
    rw [endTimers]
    split
    · exact ih w
    · exact ih _

/-- Ending what is due of one kind, with the queues: those that send a request wait on in the queue of
their next timer. -/
theorem Timed.fires_endDue (h : w.Timed idle) (now : Timestamp) (timer : Timer) :
    w.Fires now timer (w.due now timer) (w.endDue now timer).1 (w.endDue now timer).2 ∧
      (w.endDue now timer).1.queues = (w.queues.set timer (w.later now timer)).pushAll
        timer.afterRequest (Ended.requesting (w.endDue now timer).2) := by
  have popped := fires_endTimers now timer (h.nodup_due now timer)
    { w with queues := w.queues.set timer (w.later now timer) }
  refine ⟨⟨popped.slots, popped.others, popped.ended⟩, ?_⟩
  exact congrArg (fun q : TimerQueues => q.pushAll timer.afterRequest _) (queues_endTimers _ _)

theorem Timed.mem_due_of_mem_endDue (h : w.Timed idle) {e : Ended} (he : e ∈ (w.endDue now timer).2) :
    e.sequence ∈ w.due now timer := by
  rw [(h.fires_endDue now timer).1.ended] at he
  obtain ⟨x, hx, hended⟩ := List.mem_filterMap.1 he
  obtain ⟨slot, -, rfl⟩ := Option.map_eq_some_iff.1 hended
  exact hx

/-- What ending the timers of each kind keeps is kept by ending all. Those that are exhausted on the way
are idle. -/
theorem endAllDue_induction {P : Window → List Ended → Prop} (hs : w.Sound) (timed : w.Timed [])
    (now : Timestamp) (start : P w [])
    (phase : ∀ v ended timer, v.Sound → v.Timed (Ended.exhausted ended) → P v ended →
      P (v.endDue now timer).1 (ended ++ (v.endDue now timer).2)) :
    P (w.endAllDue now).1 (w.endAllDue now).2 := by
  have all := endAllDue_phases
    (P := fun v ended => v.Sound ∧ v.Timed (Ended.exhausted ended) ∧ P v ended) now
    ⟨hs, timed, start⟩ ?_
  · exact all.2.2
  rintro v ended timer ⟨hs, timed, h⟩
  rw [Ended.exhausted_append]
  exact ⟨(moves_endDue hs now timer).1.sound hs, timed.endDue now timer,
    phase v ended timer hs timed h⟩

section

variable {w' : Window} {due : List SeqNum} {ended : List Ended}

/-- The numbers whose timers ended in some way are those of the due slots that go on in this way. -/
theorem Fires.sequences_filter (h : w.Fires now timer due w' ended) (p : Option NakStage → Bool) :
    (ended.filter (p ·.stage)).map (·.sequence) =
      due.filter (w.slotIs · fun slot => p (slot.expire w.config.1 now timer).2) := by
  rw [h.ended, List.filter_filterMap, List.map_filterMap, ← List.filterMap_eq_filter]
  refine List.filterMap_congr fun x _ => ?_
  cases found : w.slots.get? x with
  | none => simp [endedAt?, slotIs, found, Option.guard]
  | some slot =>
    cases hp : p (slot.expire w.config.1 now timer).2 <;>
      simp [endedAt?, slotIs, found, hp, Option.filter, Option.guard]

/-- A slot that runs the timer and is due goes on as its end says and sends a request or is exhausted;
any other slot stays as it is and does neither. -/
theorem Timed.endDue_cases (h : w.Timed idle) (now : Timestamp) (timer : Timer)
    (hs : w.slots.get? x = some slot) :
    slot.timer = some timer ∧ slot.expiryOf timer ≤ now ∧ x ∈ w.due now timer ∧
        (w.endDue now timer).1.slots.get? x = some (slot.expire w.config.1 now timer).1 ∧
        (Ended.requesting (w.endDue now timer).2).count x =
          (slot.expire w.config.1 now timer).2.isSome.toNat ∧
        (x ∈ Ended.exhausted (w.endDue now timer).2 ↔
          (slot.expire w.config.1 now timer).2.isNone) ∨
      x ∉ w.due now timer ∧ (w.endDue now timer).1.slots.get? x = some slot ∧
        (Ended.requesting (w.endDue now timer).2).count x = 0 ∧
        x ∉ Ended.exhausted (w.endDue now timer).2 := by
  have fires := (h.fires_endDue now timer).1
  have requesting : Ended.requesting (w.endDue now timer).2 = _ := fires.sequences_filter Option.isSome
  have exhausted : Ended.exhausted (w.endDue now timer).2 = _ := fires.sequences_filter Option.isNone
  have here : ∀ p : Slot → Bool, w.slotIs x p = p slot := by
    intro p
    rw [slotIs, hs]
    rfl
  by_cases hx : x ∈ w.due now timer
  · obtain ⟨old, hold, runs, ends⟩ := exists_of_mem_due hx
    obtain rfl := Option.some.inj (hold.symm.trans hs)
    refine .inl ⟨runs, ends, hx, ?_, ?_, ?_⟩
    · rw [fires.slots x hx, hs]
      rfl
    · rw [requesting]
      cases hsome : (old.expire w.config.1 now timer).2.isSome with
      | true =>
        refine List.count_eq_one_of_mem ((h.nodup_due now timer).filter _) (List.mem_filter.2 ⟨hx, ?_⟩)
        rw [here, hsome]
      | false =>
        refine List.count_eq_zero_of_not_mem fun hm => ?_
        have := (List.mem_filter.1 hm).2
        rw [here, hsome] at this
        cases this
    · rw [exhausted, List.mem_filter, here]
      exact and_iff_right hx
  · refine .inr ⟨hx, (fires.others x hx).trans hs, ?_, ?_⟩
    · rw [requesting]
      exact List.count_eq_zero_of_not_mem fun hm => hx (List.mem_filter.1 hm).1
    · rw [exhausted]
      exact fun hm => hx (List.mem_filter.1 hm).1

end

/-! ### All requests of a sweep -/

/-- The numbers that the requests of an answer ask for. -/
def Answer.asked : Answer → List SeqNum
  | .naks requests => requests.flatMap NakRequest.sequences
  | _ => []

theorem Timed.length_queue_le (h : w.Timed idle) (t : Timer) :
    (w.queues.queue t).length ≤ w.slots.size := by
  have hsub : w.queues.queue t ⊆ w.slots.numbers := by
    intro x hx
    obtain ⟨slot, found, -⟩ := h.exists_slot hx
    obtain ⟨k, hk, rfl⟩ := SlotRing.contains_iff.1
      (SlotRing.isSome_get?_iff.1 (by rw [found]; rfl : (w.slots.get? x).isSome))
    exact SeqNum.mem_run.2 ⟨k, hk, rfl⟩
  have hle := (List.subperm_of_subset (h.nodup_queue t) hsub).length_le
  rwa [SlotRing.numbers, SeqNum.length_run] at hle

/-- One kind of timers makes requests of its stage due, and no more than there are slots. -/
theorem Timed.countP_nak?_endDue (h : w.Timed idle) (now : Timestamp) (timer : Timer)
    (stage : NakStage) :
    ((w.endDue now timer).2.filterMap Ended.nak?).countP (·.2 = stage) ≤
      if stage = timer.stage then w.slots.size else 0 := by
  have ended := (h.fires_endDue now timer).1.ended
  have stages : ∀ a ∈ (w.endDue now timer).2.filterMap Ended.nak?, a.2 = timer.stage := by
    intro a ha
    obtain ⟨e, he, hnak⟩ := List.mem_filterMap.1 ha
    rw [ended] at he
    obtain ⟨x, -, hx⟩ := List.mem_filterMap.1 he
    obtain ⟨slot, -, rfl⟩ := Option.map_eq_some_iff.1 hx
    obtain ⟨t, ht, rfl⟩ := Option.map_eq_some_iff.1 hnak
    rcases slot.stage_expire w.config.1 now timer with hnone | hsome
    · cases hnone.symm.trans ht
    · exact Option.some.inj (ht.symm.trans hsome)
  split
  · refine List.countP_le_length.trans ((List.length_filterMap_le ..).trans ?_)
    rw [ended]
    refine (List.length_filterMap_le ..).trans (Nat.le_trans ?_ (h.length_queue_le timer))
    rw [← h.due_append_later now timer, List.length_append]
    exact Nat.le_add_right ..
  next hne =>
    refine Nat.le_of_eq (List.countP_eq_zero.2 fun a ha hstage => hne ?_)
    rw [← stages a ha]
    exact (of_decide_eq_true hstage).symm

/-- A sweep makes no more requests of one stage due than there are slots. -/
theorem Timed.countP_nak?_endAllDue (h : w.Timed []) (hs : w.Sound) (now : Timestamp)
    (stage : NakStage) :
    ((w.endAllDue now).2.filterMap Ended.nak?).countP (·.2 = stage) ≤ w.slots.size := by
  rcases he₁ : w.endDue now .backOff with ⟨w₁, first⟩
  rcases he₂ : w₁.endDue now .waitNcf with ⟨w₂, second⟩
  rcases he₃ : w₂.endDue now .waitData with ⟨w₃, third⟩
  have h₁ := he₁ ▸ h.endDue now .backOff
  have h₂ := he₂ ▸ h₁.endDue now .waitNcf
  obtain ⟨hmoves, hframe₁, -⟩ := he₁ ▸ moves_endDue hs now .backOff
  have hsize₁ : w₁.slots.size = w.slots.size := congrArg Frame.size hframe₁
  have hsize₂ : w₂.slots.size = w₁.slots.size :=
    congrArg Frame.size (he₂ ▸ moves_endDue (hmoves.sound hs) now .waitNcf).2.1
  have hfirst := he₁ ▸ h.countP_nak?_endDue now .backOff stage
  have hsecond := he₂ ▸ h₁.countP_nak?_endDue now .waitNcf stage
  have hthird := he₃ ▸ h₂.countP_nak?_endDue now .waitData stage
  simp only [Window.endAllDue, he₁, he₂, he₃, List.filterMap_append, List.countP_append]
  cases stage <;> simp only [Timer.stage, reduceCtorEq, if_true, if_false] at hfirst hsecond hthird <;>
    omega

theorem step_sweep (live : w.isGone = false) (now : Timestamp) :
    w.step (.sweep now) = ((w.sweepAll now).1, .naks (w.sweepAll now).2) := by
  simp only [step, sweep, whileLive_of_live live]
  rfl

/-- The requests of a sweep are those that were due, joined. -/
theorem naks_sweepAll (h : w.Timed []) (hs : w.Sound) (now : Timestamp) :
    (w.sweepAll now).2 = NakRequest.coalesce ((w.endAllDue now).2.filterMap Ended.nak?) := by
  unfold sweepAll
  split
  next hd =>
    -- A window without a place has no slots, so nothing is due.
    have empty := (hs.blank (by simpa using hd)).1
    have none : (w.endAllDue now).2.filterMap Ended.nak? = [] := by
      refine List.eq_nil_iff_forall_not_mem.2 fun a ha => ?_
      have hle := h.countP_nak?_endAllDue hs now a.2
      rw [empty] at hle
      exact List.countP_eq_zero.1 (Nat.le_zero.1 hle) a ha (decide_eq_true rfl)
    rw [none]
    rfl
  · rfl

/-- The requests of a sweep ask for the numbers whose slots send one. -/
theorem asked_sweep (h : w.Timed []) (hs : w.Sound) (live : w.isGone = false) (now : Timestamp) :
    (w.step (.sweep now)).2.asked = Ended.requesting (w.endAllDue now).2 := by
  have hsize := hs.size_le
  rw [step_sweep live]
  change (w.sweepAll now).2.flatMap NakRequest.sequences = _
  rw [← Ended.map_nak?, naks_sweepAll h hs]
  exact NakRequest.sequences_coalesce fun stage =>
    (h.countP_nak?_endAllDue hs now stage).trans (by omega)

/-! ### Slots after a sweep -/

/-- After its timers ended a sweep only gives slots up. -/
theorem get?_sweepAll_cases (hs : w.Sound) {new : Slot}
    (hnew : (w.sweepAll now).1.slots.get? x = some new) :
    ∃ old, (w.endAllDue now).1.slots.get? x = some old ∧ (new = old ∨ new = old.lose) := by
  unfold sweepAll at hnew
  split at hnew
  next hd =>
    have empty := (hs.blank (by simpa using hd)).1
    cases (get?_of_empty empty x).symm.trans hnew
  · exact ((onlyLoses_loseAll _ _).trans (onlyLoses_resolve _)).slots hnew

theorem frame_endTimers (timer : Timer) (now : Timestamp) (due : List SeqNum) (w : Window) :
    (endTimers timer now due w).1.frame = w.frame := by
  induction due generalizing w with
  | nil => rfl
  | cons s due ih =>
    rw [endTimers]
    split
    · exact ih w
    · exact (ih _).trans (frame_modify w s _)

theorem frame_endDue (w : Window) (now : Timestamp) (timer : Timer) :
    (w.endDue now timer).1.frame = w.frame :=
  frame_endTimers timer now (w.due now timer)
    { w with queues := w.queues.set timer (w.later now timer) }

theorem frame_endAllDue (w : Window) (now : Timestamp) : (w.endAllDue now).1.frame = w.frame :=
  (frame_endDue _ now .waitData).trans ((frame_endDue _ now .waitNcf).trans (w.frame_endDue now .backOff))

theorem contains_resolveSteps (steps : Nat) (w : Window) (x : SeqNum) :
    (resolveSteps steps w).slots.Contains x ↔ w.slots.Contains x :=
  resolveSteps_of_step (R := fun w w' => w'.slots.Contains x ↔ w.slots.Contains x)
    (fun _ => Iff.rfl) (fun h h' => h'.trans h)
    (fun hstep => contains_congr (congrArg Frame.trail (frame_resolveStep hstep))
      (congrArg Frame.size (frame_resolveStep hstep))) steps w

theorem contains_resolve (w : Window) (x : SeqNum) :
    w.resolve.slots.Contains x ↔ w.slots.Contains x :=
  contains_resolveSteps _ w x

/-- No number comes into the window or leaves it in a sweep. -/
theorem contains_sweepAll (w : Window) (now : Timestamp) (x : SeqNum) :
    (w.sweepAll now).1.slots.Contains x ↔ w.slots.Contains x := by
  have hend := w.frame_endAllDue now
  unfold sweepAll
  split
  · exact Iff.rfl
  · refine (contains_resolve _ x).trans (contains_of_frame_eq ?_)
    rw [frame_foldl frame_loseApdu, hend]

/-- Only numbers of the window are exhausted. -/
theorem contains_of_exhausted (hs : w.Sound) (hx : x ∈ Ended.exhausted (w.endAllDue now).2) :
    w.slots.Contains x := by
  obtain ⟨e, he, rfl⟩ := List.mem_map.1 hx
  obtain ⟨hmoves, hahead⟩ := moves_endAllDue hs now
  have ahead := ahead_of_frame_eq (w.frame_endAllDue now).symm (hahead e (List.mem_filter.1 he).1)
  exact contains_iff_place.2 (hs.ahead_iff.1 ahead).2

end Window

end ReliableMulticast
