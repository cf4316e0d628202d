import Mathlib.Data.List.Nodup
import ReliableMulticast.Proofs.History

/-!
# Slots and their queues

Which timer a slot runs is kept twice: in the slot and by the queue that its number stands in. A
window is `Timed` if both agree: every missing packet runs a timer, and each number stands once in
the queue of the timer that its slot runs and nowhere else. During a sweep there are slots that used
up their requests and wait to be given up; they are listed as idle. Changes come in three kinds: a
slot stops (`Timed.stop`), slots go on with the timers they had (`Timed.of_timerOf_eq`), and new
placeholders start (`Timed.addPlaceholders`).
-/

namespace ReliableMulticast

/-- The state of a slot that waits by the timer and keeps no parity. -/
def Timer.waiting : Timer → SlotState
  | .backOff => .backOff
  | .waitNcf => .waitNcf
  | .waitData => .waitData

/-- The slot runs a timer exactly if its packet is missing, and if its state names a timer it runs
that one. -/
structure Slot.Clocked (slot : Slot) : Prop where
  runs : slot.state.repairPending ↔ slot.timer ≠ none
  named : ∀ t : Timer, slot.state = t.waiting → slot.timer = some t

namespace Slot.Clocked

variable {slot new : Slot}

/-- A slot that is not missing runs no timer. -/
theorem of_settled (settled : slot.state.repairPending = false) (stopped : slot.timer = none) :
    slot.Clocked where
  runs := by simp [settled, stopped]
  named := by
    intro t ht
    rw [ht] at settled
    cases t <;> cases settled

theorem congr (h : slot.Clocked) (hstate : new.state = slot.state) (htimer : new.timer = slot.timer) :
    new.Clocked :=
  ⟨by rw [hstate, htimer]; exact h.runs, by rw [hstate, htimer]; exact h.named⟩

theorem timer_eq_none (h : slot.Clocked) (settled : slot.state.repairPending = false) :
    slot.timer = none := by
  by_contra ht
  rw [h.runs.2 ht] at settled
  cases settled

/-- A slot that runs a timer is in the state of that timer or keeps parity. -/
theorem state_eq (h : slot.Clocked) {t : Timer} (ht : slot.timer = some t) :
    slot.state = t.waiting ∨ slot.state = .haveParity := by
  have hp : slot.state.repairPending := h.runs.2 (by rw [ht]; exact Option.some_ne_none t)
  have hn := h.named
  rw [ht] at hn
  cases hs : slot.state with
  | backOff => exact .inl (Option.some.inj (hn .backOff hs) ▸ rfl)
  | waitNcf => exact .inl (Option.some.inj (hn .waitNcf hs) ▸ rfl)
  | waitData => exact .inl (Option.some.inj (hn .waitData hs) ▸ rfl)
  | haveParity => exact .inr rfl
  | haveData | committed | retained | lost =>
    rw [hs] at hp
    cases hp

end Slot.Clocked

/-! ### Queues -/

namespace TimerQueues

theorem count_erase (q : TimerQueues) (t u : Timer) (s x : SeqNum) :
    ((q.erase t s).queue u).count x =
      (q.queue u).count x - if u = t ∧ x = s then 1 else 0 := by
  rw [erase, queue_set]
  by_cases hu : u = t
  · subst hu
    by_cases hx : x = s
    · simp [hx]
    · simp [hx, List.count_erase_of_ne hx]
  · simp [hu]

theorem count_pushAll (q : TimerQueues) (t u : Timer) (numbers : List SeqNum) (x : SeqNum) :
    ((q.pushAll t numbers).queue u).count x =
      (q.queue u).count x + if u = t then numbers.count x else 0 := by
  rw [pushAll, queue_set]
  by_cases hu : u = t
  · simp [hu]
  · simp [hu]

theorem queue_empty (t : Timer) : empty.queue t = [] := by cases t <;> rfl

@[simp] theorem set_queue (q : TimerQueues) (t : Timer) : q.set t (q.queue t) = q := by
  cases t <;> rfl

@[simp] theorem pushAll_nil (q : TimerQueues) (t : Timer) : q.pushAll t [] = q := by
  rw [pushAll, List.append_nil, set_queue]

theorem pushAll_cons (q : TimerQueues) (t : Timer) (s : SeqNum) (numbers : List SeqNum) :
    q.pushAll t (s :: numbers) = (q.push t s).pushAll t numbers := by
  cases t <;> simp [push, pushAll, set, queue]

end TimerQueues

namespace Window

variable {w w' : Window} {s : SeqNum} {slot : Slot} {idle idle' : List SeqNum}

/-- The timer that the slot of a number runs. -/
def timerOf (w : Window) (x : SeqNum) : Option Timer := (w.slots.get? x).bind Slot.timer

/-- Slots and queues agree, and every missing packet runs a timer but those that are idle. -/
structure Timed (w : Window) (idle : List SeqNum) : Prop where
  queued : ∀ t x, (w.queues.queue t).count x = if w.timerOf x = some t then 1 else 0
  clocked : ∀ x slot, w.slots.get? x = some slot → slot.Clocked ∨ x ∈ idle ∧ slot.timer = none

theorem timerOf_of_get? {x : SeqNum} (hs : w.slots.get? x = some slot) :
    w.timerOf x = slot.timer := by
  rw [timerOf, hs, Option.bind_some]

theorem timerOf_of_none {x : SeqNum} (hs : w.slots.get? x = none) : w.timerOf x = none := by
  rw [timerOf, hs, Option.bind_none]

namespace Timed

theorem clocked_of_get? (h : w.Timed []) {x : SeqNum} (hs : w.slots.get? x = some slot) :
    slot.Clocked :=
  (h.clocked x slot hs).resolve_right fun hidle => List.not_mem_nil hidle.1

/-- A number in a queue has a slot that runs the timer of the queue. -/
theorem exists_slot (h : w.Timed idle) {t : Timer} {x : SeqNum} (hx : x ∈ w.queues.queue t) :
    ∃ slot, w.slots.get? x = some slot ∧ slot.timer = some t := by
  have hpos := List.count_pos_iff.2 hx
  rw [h.queued] at hpos
  split at hpos
  next ht => exact Option.bind_eq_some_iff.1 ht
  · cases hpos

theorem mono (h : w.Timed idle) (hsub : idle ⊆ idle') : w.Timed idle' :=
  ⟨h.queued, fun x slot hs => (h.clocked x slot hs).imp_right (And.imp_left (hsub ·))⟩

/-- A change that stops no timer and starts none. -/
theorem of_timerOf_eq (h : w.Timed idle) (hqueues : w'.queues = w.queues)
    (htimer : ∀ x, w'.timerOf x = w.timerOf x)
    (hclocked : ∀ x slot, w'.slots.get? x = some slot →
      slot.Clocked ∨ x ∈ idle' ∧ slot.timer = none) : w'.Timed idle' :=
  ⟨fun t x => by rw [hqueues, htimer]; exact h.queued t x, hclocked⟩

theorem of_slots_eq (h : w.Timed idle) (hqueues : w'.queues = w.queues)
    (hslots : w'.slots = w.slots) : w'.Timed idle :=
  h.of_timerOf_eq hqueues (fun x => by rw [timerOf, timerOf, hslots]) (hslots ▸ h.clocked)

/-- Changes of one slot that leave its timer running or stopped. -/
theorem modify (h : w.Timed idle) {change : Slot → Slot}
    (htimer : ∀ slot, w.slots.get? s = some slot → (change slot).timer = slot.timer)
    (hclocked : ∀ slot, w.slots.get? s = some slot → slot.Clocked → (change slot).Clocked) :
    (w.modify s change).Timed idle := by
  refine h.of_timerOf_eq rfl (fun x => ?_) fun x new hs => ?_
  · rw [timerOf, timerOf, get?_modify]
    split
    next hx =>
      subst hx
      cases hs : w.slots.get? x with
      | none => rfl
      | some slot => exact htimer slot hs
    · rfl
  · rw [get?_modify] at hs
    split at hs
    next hx =>
      subst hx
      obtain ⟨old, hold, rfl⟩ := Option.map_eq_some_iff.1 hs
      rcases h.clocked x old hold with hc | ⟨hidle, ht⟩
      · exact .inl ((hclocked old hold hc).congr rfl rfl)
      · exact .inr ⟨hidle, (htimer old hold).trans ht⟩
    · exact h.clocked x new hs

/-- The slot of a number stops or leaves, and its number leaves the queue. -/
theorem stop (h : w.Timed idle) (found : w.slots.get? s = some slot)
    (hqueues : w'.queues = w.queues.unqueue slot)
    (hsame : ∀ x, x ≠ s → w'.slots.get? x = w.slots.get? x)
    (hstopped : ∀ new, w'.slots.get? s = some new →
      new.state.repairPending = false ∧ new.timer = none)
    (hidle : ∀ x ∈ idle, x = s ∨ x ∈ idle') : w'.Timed idle' := by
  have hnone : w'.timerOf s = none := by
    cases hs : w'.slots.get? s with
    | none => exact timerOf_of_none hs
    | some new => exact (timerOf_of_get? hs).trans (hstopped new hs).2
  refine ⟨fun t x => ?_, fun x new hs => ?_⟩
  · have hcount := h.queued t x
    rw [hqueues, TimerQueues.unqueue, SlotRing.sequence_of_get? found]
    by_cases hx : x = s
    · subst hx
      rw [timerOf_of_get? found] at hcount
      rw [hnone]
      cases ht : slot.timer with
      | none => simpa [ht] using hcount
      | some u =>
        rw [ht] at hcount
        simp only [TimerQueues.count_erase, hcount]
        by_cases htu : t = u
        · simp [htu]
        · simp [htu, Ne.symm htu]
    · rw [timerOf, hsame x hx, ← timerOf, ← hcount]
      cases slot.timer with
      | none => rfl
      | some u => simp [TimerQueues.count_erase, hx]
  · by_cases hx : x = s
    · subst hx
      obtain ⟨hsettled, hstop⟩ := hstopped new hs
      exact .inl (.of_settled hsettled hstop)
    · rw [hsame x hx] at hs
      exact (h.clocked x new hs).imp_right
        (And.imp_left fun hmem => (hidle x hmem).resolve_left hx)

/-! ### Giving up -/

/-- A slot that is given up is idle no more. -/
theorem giveUpSlot (h : w.Timed (s :: idle)) : (w.giveUpSlot s).Timed idle := by
  have hidle : ∀ x ∈ s :: idle, x = s ∨ x ∈ idle := fun x hx => List.mem_cons.1 hx
  have hlost : ∀ new, (w.giveUpSlot s).slots.get? s = some new →
      new.state.repairPending = false := by
    intro new hs
    rw [get?_giveUpSlot, if_pos rfl] at hs
    obtain ⟨old, -, rfl⟩ := Option.map_eq_some_iff.1 hs
    rw [old.state_lose]
    rfl
  cases found : w.slots.get? s with
  | none =>
    have hsame : w.giveUpSlot s = w := by rw [Window.giveUpSlot, found]
    rw [hsame]
    refine ⟨h.queued, fun x slot hs => (h.clocked x slot hs).imp_right (And.imp_left fun hmem => ?_)⟩
    refine (hidle x hmem).resolve_left ?_
    rintro rfl
    rw [found] at hs
    cases hs
  | some slot =>
    have hstop : slot.lose.timer = none := by
      rcases h.clocked s slot found with hc | ⟨-, ht⟩
      · exact Slot.timer_lose hc.runs.2
      · exact Slot.timer_lose fun hne => absurd ht hne
    by_cases hl : slot.state = .lost
    · -- It was given up before, so it runs no timer.
      have hsame : w.giveUpSlot s = w := by rw [Window.giveUpSlot, found]; exact if_pos hl
      rw [Slot.lose, if_pos hl] at hstop
      rw [hsame]
      refine h.stop found (by rw [TimerQueues.unqueue, hstop]) (fun x _ => rfl) ?_ hidle
      intro new hs
      obtain rfl := Option.some.inj (found.symm.trans hs)
      exact ⟨by rw [hl]; rfl, hstop⟩
    · refine h.stop found ?_ (fun x hx => by rw [get?_giveUpSlot, if_neg hx]) ?_ hidle
      · rw [Window.giveUpSlot, found]
        simp only [if_neg hl]
      · intro new hs
        refine ⟨hlost new hs, ?_⟩
        rw [get?_giveUpSlot, if_pos rfl, found] at hs
        obtain rfl := Option.some.inj hs
        exact hstop

theorem giveUpMember (h : w.Timed idle) (first : SeqNum) :
    (giveUpMember first w s).Timed idle := by
  unfold Window.giveUpMember
  split
  · exact (h.mono (List.subset_cons_self s idle)).giveUpSlot
  · exact h

theorem loseApdu (h : w.Timed (s :: idle)) : (w.loseApdu s).Timed idle := by
  cases hf : (w.slots.get? s).bind Slot.fragment with
  | none =>
    rw [loseApdu_of_none hf]
    exact h.giveUpSlot
  | some f =>
    rw [loseApdu_of_some hf]
    generalize w.spread f.apduFirst s = numbers
    have hfold : ∀ (numbers : List SeqNum) {w : Window}, w.Timed idle →
        (numbers.foldl (Window.giveUpMember f.apduFirst) w).Timed idle := by
      intro numbers
      induction numbers with
      | nil => exact fun h => h
      | cons x numbers ih => exact fun h => ih (h.giveUpMember f.apduFirst)
    exact hfold numbers h.giveUpSlot

/-- Once all idle slots are given up, none is idle. -/
theorem loseAll {numbers : List SeqNum} (h : w.Timed numbers) :
    (numbers.foldl Window.loseApdu w).Timed [] := by
  induction numbers generalizing w with
  | nil => exact h
  | cons s numbers ih => exact ih h.loseApdu

theorem resolveStep (h : w.Timed []) (hstep : w.resolveStep? = some w') : w'.Timed [] := by
  have lose : ∀ {w : Window} (x : SeqNum), w.Timed [] → (w.loseApdu x).Timed [] :=
    fun x h => (h.mono (List.nil_subset [x])).loseApdu
  obtain ⟨count, rfl⟩ | rfl | rfl | rfl := resolveStep?_cases hstep
  · exact h.of_slots_eq rfl rfl
  · exact (h.mono (List.nil_subset [w.commitLead])).giveUpSlot
  · exact lose w.commitLead h
  · exact lose w.commitLead (h.of_slots_eq rfl rfl)

theorem resolve (h : w.Timed []) : w.resolve.Timed [] := by
  unfold Window.resolve
  generalize 2 * w.commitLead.gap w.next = steps
  induction steps generalizing w with
  | zero => exact h
  | succ steps ih =>
    rw [resolveSteps]
    split
    · exact h
    next w' hstep => exact ih (h.resolveStep hstep)

/-! ### Moving the lead -/

theorem evictTrail (h : w.Timed []) : w.evictTrail.Timed [] := by
  cases hpop : w.slots.popTrail? with
  | none =>
    have hsame : w.evictTrail = w := by rw [Window.evictTrail, hpop]
    rwa [hsame]
  | some popped =>
    obtain ⟨slot, slots⟩ := popped
    obtain ⟨found, -, -, -, hget⟩ := SlotRing.popTrail?_eq_some hpop
    obtain ⟨hslots, hqueues⟩ : w.evictTrail.slots = slots ∧
        w.evictTrail.queues = w.queues.unqueue slot := by
      rw [Window.evictTrail, hpop]
      simp only
      split <;> exact ⟨rfl, rfl⟩
    refine h.stop found hqueues (fun x hx => ?_) (fun new hs => ?_) fun x hx => .inr hx
    · rw [hslots, hget, if_neg hx]
    · rw [hslots, hget, if_pos rfl] at hs
      cases hs

theorem evict (n : Nat) (h : w.Timed []) : (evict n w).Timed [] := by
  induction n generalizing w with
  | zero => exact h
  | succ n ih => exact ih h.evictTrail

/-- A window without slots has empty queues wherever it moves. -/
theorem skipTo (h : w.Timed []) (target : SeqNum)
    (empty : w.trail.Before target → w.slots.size = 0) : (w.skipTo target).Timed [] := by
  by_cases hahead : w.trail.Before target
  · have hqueues : (w.skipTo target).queues = w.queues := by
      rw [Window.skipTo, if_pos hahead]
      rfl
    have hnone : ∀ x, (w.skipTo target).slots.get? x = none := by
      intro x
      rw [Window.skipTo, if_pos hahead]
      exact SlotRing.get?_reset ..
    have hempty : ∀ x, w.slots.get? x = none := get?_of_empty (empty hahead)
    refine h.of_timerOf_eq hqueues (fun x => ?_) fun x slot hs => ?_
    · rw [timerOf_of_none (hnone x), timerOf_of_none (hempty x)]
    · rw [hnone] at hs
      cases hs
  · have hsame : w.skipTo target = w := if_neg hahead
    rwa [hsame]

theorem makeRoom (h : w.Timed []) (hs : w.Sound) (last : SeqNum) : (w.makeRoom last).Timed [] := by
  unfold Window.makeRoom
  simp only
  generalize last - (w.capacity - 1) = target
  obtain ⟨-, -, -, htrail, hsize⟩ := moves_evict (min w.slots.size (w.trail.steps target)) hs
    (Nat.min_le_left ..)
  refine of_slots_eq ((h.evict _).skipTo target fun hahead => ?_) rfl rfl
  -- If not all slots were evicted, the trail has arrived.
  by_contra hne
  rw [Nat.min_eq_right (by omega)] at htrail hahead
  rw [htrail, SeqNum.steps] at hahead
  split at hahead
  · rw [SeqNum.add_gap, SeqNum.before_iff, SeqNum.gap_self] at hahead
    omega
  next hnot => exact hnot (by rwa [SeqNum.add_zero] at hahead)

/-- New placeholders start their first timers and are put in its queue in their order. -/
theorem addPlaceholders (h : w.Timed []) (stop : SeqNum) (now : Timestamp)
    (room : w.slots.size + w.next.gap stop ≤ w.capacity) :
    (w.addPlaceholders stop now).Timed [] := by
  have hmax : w.capacity ≤ 2147483648 := w.slots.capacity_le
  have hget := get?_addPlaceholders stop now room
  have hqueues : (w.addPlaceholders stop now).queues =
      w.queues.pushAll .backOff (w.next.upTo stop) := rfl
  have hnodup : (w.next.upTo stop).Nodup := SeqNum.nodup_run _ (by
    rw [SeqNum.steps_eq_gap (by omega)]
    omega)
  have hfresh : ∀ x ∈ w.next.upTo stop, w.slots.get? x = none := fun x hx =>
    SlotRing.get?_eq_none (not_contains_of_mem_upTo room hx)
  refine ⟨fun t x => ?_, fun x slot hs => ?_⟩
  · have hcount := h.queued t x
    rw [hqueues, TimerQueues.count_pushAll, timerOf, hget]
    by_cases hx : x ∈ w.next.upTo stop
    · rw [timerOf_of_none (hfresh x hx)] at hcount
      rw [if_pos hx, List.count_eq_one_of_mem hnodup hx, hcount]
      cases t <;> rfl
    · rw [if_neg hx, List.count_eq_zero_of_not_mem hx, ite_self, Nat.add_zero]
      exact hcount
  · rw [hget] at hs
    split at hs
    · obtain rfl := Option.some.inj hs
      refine .inl ⟨by simp [Slot.placeholder, SlotState.repairPending], fun t ht => ?_⟩
      cases t with
      | backOff => rfl
      | waitNcf | waitData => cases ht
    · exact h.clocked x slot hs

theorem append (h : w.Timed []) (next : slot.sequence = w.next) (room : w.slots.size < w.capacity)
    (settled : slot.state.repairPending = false) (stopped : slot.timer = none) :
    (w.append slot).Timed [] := by
  have hget := Sound.get?_append next room
  refine h.of_timerOf_eq rfl (fun x => ?_) fun x new hs => ?_
  · rw [timerOf, hget]
    split
    next hx =>
      subst hx
      rw [timerOf_of_none (SlotRing.get?_eq_none fun hc => ?_), Option.bind_some, stopped]
      rw [contains_iff_place, place_next] at hc
      omega
    · rfl
  · rw [hget] at hs
    split at hs
    · obtain rfl := Option.some.inj hs
      exact .inl (.of_settled settled stopped)
    · exact h.clocked x new hs

theorem of_empty (hslots : ∀ x, w.slots.get? x = none) (hqueues : w.queues = .empty) :
    w.Timed [] := by
  refine ⟨fun t x => ?_, fun x slot hs => ?_⟩
  · rw [timerOf_of_none (hslots x), hqueues, TimerQueues.queue_empty]
    rfl
  · rw [hslots] at hs
    cases hs

theorem define (w : Window) (trail : SeqNum) : (w.define trail).Timed [] :=
  of_empty (SlotRing.get?_reset w.slots trail) rfl

theorem ensureDefined (h : w.Timed []) (trail : SeqNum) : (w.ensureDefined trail).Timed [] := by
  unfold Window.ensureDefined
  split
  · exact h
  · exact .define w trail

theorem advanceLead (h : w.Timed []) (hs : w.Sound) (defined : w.isDefined) {lead : SeqNum}
    (ahead : lead.After w.lead) (now : Timestamp) : (w.advanceLead lead now).Timed [] := by
  have room := room_makeRoom hs defined (after_lead_iff.1 ahead)
  exact (h.makeRoom hs lead).addPlaceholders lead.next now room

theorem extend (h : w.Timed []) (hs : w.Sound) (defined : w.isDefined) {p : Packet}
    (ahead : p.sequence.After w.lead) (now : Timestamp) : (w.extend p now).Timed [] := by
  obtain ⟨_, -, hmoves, hroom⟩ := makeRoom_spec hs defined (after_lead_iff.1 ahead)
  have hs' := hmoves.sound hs
  have hcap := hmoves.capacity_eq hs
  obtain ⟨hfill, hnext, hsize⟩ := addPlaceholders_spec hs' (hmoves.keeps.isDefined defined)
    p.sequence now (by omega)
  have hcap' := hfill.capacity_eq hs'
  have hplaced := (h.makeRoom hs p.sequence).addPlaceholders p.sequence now (by omega)
  exact hplaced.append hnext.symm (by omega) rfl rfl

end Timed

end Window

end ReliableMulticast
