import ReliableMulticast.Proofs.Enclosure
import ReliableMulticast.Proofs.Punctual

/-!
# Deadlines

A sweep takes what is due off the fronts of the queues, and the next expiry is read off the fronts as
well. As the queues are in the order of their expiry, this is as good as a look at all slots: what is due
hides behind nothing (`Punctual.mem_due`), and the first of the fronts is the first of all
(`Punctual.firstExpiry_eq_some_iff`).
-/

namespace ReliableMulticast

/-! ### Moments in order -/

namespace Timestamp

theorem le_antisymm {a b : Timestamp} (h : a ≤ b) (h' : b ≤ a) : a = b := by
  obtain ⟨a⟩ := a
  obtain ⟨b⟩ := b
  exact congrArg mk (UInt64.toNat_inj.1 (Nat.le_antisymm h h'))

theorem le_last (a : Timestamp) : a ≤ last := Nat.le_of_lt_succ a.micros.toNat_lt

instance : Std.IsLinearOrder Timestamp :=
  .of_le ⟨fun _ _ => le_antisymm⟩ ⟨le_trans⟩ ⟨fun a b => Nat.le_total a.micros.toNat b.micros.toNat⟩

instance : Std.LawfulOrderMin Timestamp where
  min_eq_or a b := by
    change (if a ≤ b then a else b) = a ∨ (if a ≤ b then a else b) = b
    split
    · exact .inl rfl
    · exact .inr rfl
  le_min_iff a b c := by
    change a ≤ (if b ≤ c then b else c) ↔ _
    split
    next h => exact ⟨fun hab => ⟨hab, le_trans hab h⟩, And.left⟩
    next h => exact ⟨fun hac => ⟨le_trans hac (Nat.le_of_not_le h), hac⟩, And.right⟩

end Timestamp

/-- In a queue that is in order, all that is due stands at the front. -/
theorem TimerQueues.mem_splitDue_of_le {now e : Timestamp} {expiry : SeqNum → Option Timestamp}
    {numbers : List SeqNum} {x : SeqNum}
    (sorted : numbers.Pairwise fun y z => ∀ a ∈ expiry y, ∀ b ∈ expiry z, a ≤ b) (hx : x ∈ numbers)
    (he : expiry x = some e) (due : e ≤ now) : x ∈ (splitDue now expiry numbers).1 := by
  induction numbers with
  | nil => cases hx
  | cons s numbers ih =>
    obtain ⟨first, sorted⟩ := List.pairwise_cons.1 sorted
    rw [splitDue]
    split
    next hnone =>
      rcases List.mem_cons.1 hx with rfl | hx
      · cases hnone.symm.trans he
      · exact ih sorted hx
    next d hd =>
      split
      next hle =>
        rcases List.mem_cons.1 hx with rfl | hx
        · exact List.mem_cons_self ..
        · exact List.mem_cons_of_mem s (ih sorted hx)
      next hlate =>
        -- The front is not due, and nothing behind it ends earlier.
        refine absurd ?_ hlate
        rcases List.mem_cons.1 hx with rfl | hx
        · obtain rfl := Option.some.inj (hd.symm.trans he)
          exact due
        · exact Timestamp.le_trans (first x hx d hd e he) due

namespace Window

variable {w w' : Window} {now e : Timestamp} {timer : Timer} {idle : List SeqNum} {x : SeqNum}
  {slot : Slot}

/-! ### Numbers in the queues -/

theorem Timed.mem_queue_iff (h : w.Timed idle) {t : Timer} :
    x ∈ w.queues.queue t ↔ (w.expiryIn t x).isSome := by
  rw [← List.count_pos_iff, h.queued, Option.isSome_iff_exists]
  simp only [expiryIn_eq_some_iff]
  constructor
  · intro hpos
    split at hpos
    next ht =>
      obtain ⟨slot, found, runs⟩ := Option.bind_eq_some_iff.1 ht
      exact ⟨_, slot, found, runs, rfl⟩
    · cases hpos
  · rintro ⟨-, slot, found, runs, -⟩
    rw [if_pos ((timerOf_of_get? found).trans runs)]
    exact Nat.one_pos

/-- A packet is missing exactly if its slot runs a timer. -/
theorem Timed.pending_iff (h : w.Timed []) (found : w.slots.get? x = some slot) :
    slot.state.repairPending ∧ slot.expiry = some e ↔ ∃ t, w.expiryIn t x = some e := by
  have clocked := h.clocked_of_get? found
  constructor
  · rintro ⟨-, hexpiry⟩
    obtain ⟨t, runs, rfl⟩ := Option.map_eq_some_iff.1 hexpiry
    exact ⟨t, expiryIn_eq_some_iff.2 ⟨slot, found, runs, rfl⟩⟩
  · rintro ⟨t, ht⟩
    obtain ⟨other, hother, runs, rfl⟩ := expiryIn_eq_some_iff.1 ht
    obtain rfl := Option.some.inj (hother.symm.trans found)
    exact ⟨clocked.runs.2 (by rw [runs]; exact Option.some_ne_none t), by rw [Slot.expiry, runs]; rfl⟩

/-- Every missing packet has its expiry in a queue. -/
theorem Timed.exists_expiryIn (h : w.Timed []) (found : w.slots.get? x = some slot)
    (pending : slot.state.repairPending) : ∃ t d, slot.expiry = some d ∧ w.expiryIn t x = some d := by
  obtain ⟨t, runs⟩ := Option.ne_none_iff_exists'.1 ((h.clocked_of_get? found).runs.1 pending)
  exact ⟨t, _, by rw [Slot.expiry, runs]; rfl, expiryIn_eq_some_iff.2 ⟨slot, found, runs, rfl⟩⟩

/-- Every expiry in a queue is that of a missing packet. -/
theorem Timed.exists_pending (h : w.Timed []) {t : Timer} (he : w.expiryIn t x = some e) :
    ∃ slot, w.slots.get? x = some slot ∧ slot.state.repairPending ∧ slot.expiry = some e := by
  obtain ⟨slot, found, -, -⟩ := expiryIn_eq_some_iff.1 he
  exact ⟨slot, found, (h.pending_iff found).2 ⟨t, he⟩⟩

/-- The expiries of a queue, in order. -/
theorem Punctual.exists_expiries (h : w.Punctual now) (timed : w.Timed []) (t : Timer) :
    ∃ expiries : List Timestamp,
      (w.queues.queue t).map (w.expiryIn t) = expiries.map some ∧ expiries.Pairwise (· ≤ ·) := by
  refine ⟨(w.queues.queue t).filterMap (w.expiryIn t), ?_, ?_⟩
  · rw [List.map_filterMap_some_eq_filter_map_isSome, eq_comm, List.filter_eq_self]
    intro expiry hexpiry
    obtain ⟨x, hx, rfl⟩ := List.mem_map.1 hexpiry
    exact timed.mem_queue_iff.1 hx
  · rw [List.pairwise_filterMap]
    exact (h.sorted t).imp fun hxy a ha b hb => hxy a ha b hb

/-! ### The next expiry -/

theorem Timed.frontExpiry_eq_some (h : w.Timed idle) {t : Timer} (hfront : w.frontExpiry t = some e) :
    ∃ x, w.expiryIn t x = some e := by
  obtain ⟨x, hx, hexpiry⟩ := Option.bind_eq_some_iff.1 hfront
  obtain ⟨slot, found, runs⟩ := h.exists_slot (List.mem_of_mem_head? hx)
  rw [found, Option.bind_some, Slot.expiry, runs] at hexpiry
  exact ⟨x, expiryIn_eq_some_iff.2 ⟨slot, found, runs, Option.some.inj hexpiry⟩⟩

/-- The front of a queue ends first. -/
theorem Punctual.exists_frontExpiry (h : w.Punctual now) (timed : w.Timed idle) {t : Timer}
    (hx : w.expiryIn t x = some e) : ∃ d, w.frontExpiry t = some d ∧ d ≤ e := by
  have hmem := timed.mem_queue_iff.2 (Option.isSome_iff_exists.2 ⟨e, hx⟩)
  have sorted := h.sorted t
  cases hqueue : w.queues.queue t with
  | nil =>
    rw [hqueue] at hmem
    cases hmem
  | cons s rest =>
    rw [hqueue] at hmem sorted
    obtain ⟨slot, found, runs⟩ := timed.exists_slot (hqueue ▸ List.mem_cons_self ..)
    have hs : w.expiryIn t s = some (slot.expiryOf t) :=
      expiryIn_eq_some_iff.2 ⟨slot, found, runs, rfl⟩
    refine ⟨slot.expiryOf t, ?_, ?_⟩
    · rw [frontExpiry, TimerQueues.front?, hqueue, List.head?_cons, Option.bind_some, found,
        Option.bind_some, Slot.expiry, runs, Option.map_some]
    · rcases List.mem_cons.1 hmem with rfl | hmem
      · rw [hx] at hs
        obtain rfl := Option.some.inj hs
        exact Timestamp.le_refl _
      · exact (List.pairwise_cons.1 sorted).1 x hmem _ hs e hx

theorem mem_frontExpiries : e ∈ [Timer.backOff, .waitNcf, .waitData].filterMap w.frontExpiry ↔
    ∃ t, w.frontExpiry t = some e := by
  rw [List.mem_filterMap]
  constructor
  · rintro ⟨t, -, ht⟩
    exact ⟨t, ht⟩
  · rintro ⟨t, ht⟩
    exact ⟨t, by cases t <;> simp, ht⟩

/-- The next expiry is the first of those of all missing packets. -/
theorem Punctual.firstExpiry_eq_some_iff (h : w.Punctual now) (timed : w.Timed []) :
    w.firstExpiry = some e ↔
      (∃ t x, w.expiryIn t x = some e) ∧ ∀ t x d, w.expiryIn t x = some d → e ≤ d := by
  rw [firstExpiry, List.min?_eq_some_iff]
  simp only [mem_frontExpiries]
  constructor
  · rintro ⟨⟨t, ht⟩, least⟩
    refine ⟨⟨t, timed.frontExpiry_eq_some ht⟩, fun u y d hd => ?_⟩
    obtain ⟨front, hfront, hle⟩ := h.exists_frontExpiry timed hd
    exact Timestamp.le_trans (least front ⟨u, hfront⟩) hle
  · rintro ⟨⟨t, x, hx⟩, least⟩
    have least' : ∀ u d, w.frontExpiry u = some d → e ≤ d := fun u d hd => by
      obtain ⟨y, hy⟩ := timed.frontExpiry_eq_some hd
      exact least u y d hy
    obtain ⟨front, hfront, hle⟩ := h.exists_frontExpiry timed hx
    obtain rfl := Timestamp.le_antisymm hle (least' t front hfront)
    exact ⟨⟨t, hfront⟩, fun d ⟨u, hd⟩ => least' u d hd⟩

theorem Punctual.firstExpiry_eq_none_iff (h : w.Punctual now) (timed : w.Timed []) :
    w.firstExpiry = none ↔ ∀ t x, w.expiryIn t x = none := by
  rw [firstExpiry, List.min?_eq_none_iff, List.eq_nil_iff_forall_not_mem]
  simp only [mem_frontExpiries]
  constructor
  · intro none t x
    refine Option.eq_none_iff_forall_not_mem.2 fun d hd => ?_
    obtain ⟨front, hfront, -⟩ := h.exists_frontExpiry timed hd
    exact none front ⟨t, hfront⟩
  · rintro none d ⟨t, ht⟩
    obtain ⟨x, hx⟩ := timed.frontExpiry_eq_some ht
    cases (none t x).symm.trans hx

/-! ### Due and not due -/

theorem Punctual.mem_due (h : w.Punctual now) (timed : w.Timed idle) (hx : w.expiryIn timer x = some e)
    (due : e ≤ now) : x ∈ w.due now timer :=
  TimerQueues.mem_splitDue_of_le (h.sorted timer)
    (timed.mem_queue_iff.2 (Option.isSome_iff_exists.2 ⟨e, hx⟩)) hx due

theorem Timed.mem_endDue (h : w.Timed idle) (hx : x ∈ w.due now timer)
    (found : w.slots.get? x = some slot) :
    ⟨x, (slot.expire w.config.1 now timer).2⟩ ∈ (w.endDue now timer).2 := by
  rw [(h.fires_endDue now timer).1.ended]
  refine List.mem_filterMap.2 ⟨x, hx, ?_⟩
  rw [endedAt?, found]
  rfl

/-- Timers of another kind leave a slot alone. -/
theorem Timed.get?_endDue_of_ne (h : w.Timed idle) (found : w.slots.get? x = some slot)
    (other : slot.timer ≠ some timer) (now : Timestamp) :
    (w.endDue now timer).1.slots.get? x = some slot := by
  rcases h.endDue_cases now timer found with ⟨runs, -⟩ | ⟨-, same, -⟩
  · exact absurd runs other
  · exact same

/-- Every timer that is due ends. -/
theorem Punctual.mem_endAllDue (h : w.Punctual now) (timed : w.Timed [])
    (found : w.slots.get? x = some slot) (runs : slot.timer = some timer)
    (due : slot.expiryOf timer ≤ now) :
    ⟨x, (slot.expire w.config.1 now timer).2⟩ ∈ (w.endAllDue now).2 := by
  have phase : ∀ {v : Window} {idle}, v.Punctual now → v.Timed idle → v.config = w.config →
      v.slots.get? x = some slot →
        ⟨x, (slot.expire w.config.1 now timer).2⟩ ∈ (v.endDue now timer).2 := by
    intro v idle h timed config found
    rw [← config]
    exact timed.mem_endDue
      (h.mem_due timed (expiryIn_eq_some_iff.2 ⟨slot, found, runs, rfl⟩) due) found
  have other : ∀ t, t ≠ timer → slot.timer ≠ some t := by
    rintro t hne ht
    exact hne (Option.some.inj (ht.symm.trans runs))
  have config : ∀ (v : Window) t, (v.endDue now t).1.config = v.config := fun v t =>
    (Keeps.of_frame_eq (v.frame_endDue now t)).config
  rcases he₁ : w.endDue now .backOff with ⟨w₁, first⟩
  rcases he₂ : w₁.endDue now .waitNcf with ⟨w₂, second⟩
  rcases he₃ : w₂.endDue now .waitData with ⟨w₃, third⟩
  have timed₁ := he₁ ▸ timed.endDue now .backOff
  have timed₂ := he₂ ▸ timed₁.endDue now .waitNcf
  have h₁ := he₁ ▸ h.renew (renews_endDue timed now .backOff)
  have h₂ := he₂ ▸ h₁.renew (renews_endDue timed₁ now .waitNcf)
  have config₁ := he₁ ▸ config w .backOff
  have config₂ := (he₂ ▸ config w₁ .waitNcf).trans config₁
  simp only [Window.endAllDue, he₁, he₂, he₃, List.mem_append]
  cases timer with
  | backOff =>
    have ended := he₁ ▸ phase h timed rfl found
    exact .inl (.inl ended)
  | waitNcf =>
    have found₁ := he₁ ▸ timed.get?_endDue_of_ne found (other .backOff (by decide)) now
    have ended := he₂ ▸ phase h₁ timed₁ config₁ found₁
    exact .inl (.inr ended)
  | waitData =>
    have found₁ := he₁ ▸ timed.get?_endDue_of_ne found (other .backOff (by decide)) now
    have found₂ := he₂ ▸ timed₁.get?_endDue_of_ne found₁ (other .waitNcf (by decide)) now
    have ended := he₃ ▸ phase h₂ timed₂ config₂ found₂
    exact .inr ended

/-- A timer that is not due goes on. -/
theorem Timed.get?_endAllDue_of_lt (timed : w.Timed []) (hs : w.Sound)
    (found : w.slots.get? x = some slot) (runs : slot.timer = some timer)
    (later : ¬ slot.expiryOf timer ≤ now) :
    (w.endAllDue now).1.slots.get? x = some slot ∧ ∀ e ∈ (w.endAllDue now).2, e.sequence ≠ x := by
  refine endAllDue_induction (P := fun v ended => v.slots.get? x = some slot ∧
    ∀ e ∈ ended, e.sequence ≠ x) hs timed now ⟨found, nofun⟩ ?_
  rintro v ended t - timed ⟨found, spared⟩
  rcases timed.endDue_cases now t found with ⟨runs', due, -⟩ | ⟨hnot, same, -⟩
  · obtain rfl := Option.some.inj (runs'.symm.trans runs)
    exact absurd due later
  · refine ⟨same, fun e he => ?_⟩
    rcases List.mem_append.1 he with he | he
    · exact spared e he
    · rintro rfl
      exact hnot (timed.mem_due_of_mem_endDue he)

/-! ### Histories -/

/-- The queues are exact: they are in the order of their expiry, and the next expiry is the first of all
missing packets. -/
structure KeepsDeadlines (w : Window) : Prop where
  sorted : ∀ t, ∃ expiries : List Timestamp,
    (w.queues.queue t).map (w.expiryIn t) = expiries.map some ∧ expiries.Pairwise (· ≤ ·)
  next : ∀ e, w.nextExpiry = some e ↔
    (∃ x slot, w.slots.get? x = some slot ∧ slot.state.repairPending ∧ slot.expiry = some e) ∧
      ∀ x slot, w.slots.get? x = some slot → slot.state.repairPending →
        ∃ d, slot.expiry = some d ∧ e ≤ d
  idle : w.nextExpiry = none ↔
    ∀ x slot, w.slots.get? x = some slot → slot.state.repairPending = false

theorem Punctual.keepsDeadlines (h : w.Punctual now) (timed : w.Timed []) (live : w.isGone = false) :
    w.KeepsDeadlines := by
  have hnext : w.nextExpiry = w.firstExpiry := by
    rw [nextExpiry, live]
    rfl
  refine ⟨h.exists_expiries timed, fun e => ?_, ?_⟩
  · rw [hnext, h.firstExpiry_eq_some_iff timed]
    constructor
    · rintro ⟨⟨t, x, hx⟩, least⟩
      refine ⟨⟨x, timed.exists_pending hx⟩, fun y slot found pending => ?_⟩
      obtain ⟨u, d, hexpiry, hd⟩ := timed.exists_expiryIn found pending
      exact ⟨d, hexpiry, least u y d hd⟩
    · rintro ⟨⟨x, slot, found, pending⟩, least⟩
      obtain ⟨t, hx⟩ := (timed.pending_iff found).1 pending
      refine ⟨⟨t, x, hx⟩, fun u y d hd => ?_⟩
      obtain ⟨other, hother, pending', hexpiry⟩ := timed.exists_pending hd
      obtain ⟨d', hd', hle⟩ := least y other hother pending'
      obtain rfl := Option.some.inj (hd'.symm.trans hexpiry)
      exact hle
  · rw [hnext, h.firstExpiry_eq_none_iff timed]
    constructor
    · intro none x slot found
      refine Bool.eq_false_iff.2 fun pending => ?_
      obtain ⟨t, d, -, hd⟩ := timed.exists_expiryIn found pending
      cases (none t x).symm.trans hd
    · intro settled t x
      refine Option.eq_none_iff_forall_not_mem.2 fun d hd => ?_
      obtain ⟨slot, found, pending, -⟩ := timed.exists_pending hd
      rw [settled x slot found] at pending
      cases pending

/-- The timer of a slot ended in a sweep, and its packet was requested or given up. -/
structure Fired (w : Window) (now : Timestamp) (x : SeqNum) (slot : Slot) (timer : Timer) : Prop where
  runs : slot.timer = some timer
  ended : ⟨x, (slot.expire w.config.1 now timer).2⟩ ∈ (w.endAllDue now).2
  requested : (slot.expire w.config.1 now timer).2.isSome → x ∈ (w.step (.sweep now)).2.asked
  givenUp : (slot.expire w.config.1 now timer).2 = none →
    (w.step (.sweep now)).1.slotIs x (·.state = .lost)

/-- The slot of a number and its place in the queues are as they were. -/
structure Untouched (w w' : Window) (x : SeqNum) : Prop where
  slot : w'.slots.get? x = w.slots.get? x
  queued : ∀ t, (w'.queues.queue t).count x = (w.queues.queue t).count x

/-- The queues are as good as a look at all slots. If time does not go back, they are in order, the next
expiry is the first of all missing packets, and a sweep ends the timers that are due and touches no
other, unless it gives up an APDU around the slot. -/
theorem queues_exact (tsi : Tsi) (config : ValidConfig) (ops : List Op)
    (live : ((create tsi config).run ops).isGone = false) (chronological : Chronological ops) :
    let w := (create tsi config).run ops
    w.KeepsDeadlines ∧ ∀ now, Chronological (ops ++ [.sweep now]) → ∀ x slot e,
      w.slots.get? x = some slot → slot.state.repairPending → slot.expiry = some e →
        (e ≤ now → ∃ timer, w.Fired now x slot timer) ∧
          (now < e → x ∉ (w.step (.sweep now)).2.asked ∧
            (w.Untouched (w.step (.sweep now)).1 x ∨ w.LostInside (w.step (.sweep now)).1 x)) := by
  intro w
  have hs : w.Sound := (sound_run (sound_create tsi config) live).1
  have timed : w.Timed [] := timed_run tsi config ops
  refine ⟨(punctual_run tsi config chronological fun t _ => t.le_last).keepsDeadlines timed live,
    fun now chronological' x slot e found pending hexpiry => ?_⟩
  obtain ⟨timer, runs, rfl⟩ := Option.map_eq_some_iff.1 hexpiry
  have hstep : (w.step (.sweep now)).1 = (w.sweepAll now).1 := congrArg Prod.fst (step_sweep live now)
  have hasked := asked_sweep timed hs live now
  have bare : w.Bare := bare_run tsi config live
  have late : ∀ t ∈ ops.filterMap Op.time?, t ≤ now := by
    rw [Chronological, List.filterMap_append, List.pairwise_append] at chronological'
    exact fun t ht => chronological'.2.2 t ht now (List.mem_singleton_self now)
  have ended := fun due =>
    (punctual_run tsi config chronological late).mem_endAllDue timed found runs due
  refine ⟨fun due => ⟨timer, runs, ?_, fun requests => ?_, fun exhausts => ?_⟩, fun later => ?_⟩
  · exact ended due
  · rw [hasked]
    exact List.mem_map_of_mem (List.mem_filter.2 ⟨ended due, requests⟩)
  · rw [hstep]
    refine lost_of_exhausted hs timed bare (List.mem_map_of_mem (List.mem_filter.2 ⟨ended due, ?_⟩))
    rw [exhausts]
    rfl
  · obtain ⟨same, spared⟩ := timed.get?_endAllDue_of_lt hs found runs (Nat.not_le_of_lt later)
    have notAmong : ∀ p : Ended → Bool, x ∉ ((w.endAllDue now).2.filter p).map (·.sequence) := by
      intro p hx
      obtain ⟨e, he, hsequence⟩ := List.mem_map.1 hx
      exact spared e (List.mem_filter.1 he).1 hsequence
    refine ⟨hasked ▸ notAmong _, ?_⟩
    rw [hstep]
    refine (get?_sweepAll_of_pending hs timed bare same pending (notAmong _)).imp_left fun still => ?_
    refine ⟨still.trans found.symm, fun t => ?_⟩
    rw [(timed.sweepAll now).queued, timed.queued, timerOf_of_get? still, timerOf_of_get? found]

/-- The small window with timers that run for a while. -/
def patientConfig : ValidConfig :=
  ⟨{ smallConfig.1 with backOff := .ofMicros 10, ncfWait := .ofMicros 20, dataWait := .ofMicros 30 },
    by decide⟩

/-- Two packets are found missing, one a while after the other. -/
def gapHistory : List Op :=
  [smallPush 0 none 1, smallPush 2 none 2, .push ⟨smallTsi, 4, none, ⟨#[3]⟩⟩ ⟨5⟩]

theorem queues_exact_small :
    let w := (create smallTsi patientConfig).run gapHistory
    w.isGone = false ∧ Chronological (gapHistory ++ [.sweep ⟨12⟩]) ∧ w.KeepsDeadlines ∧
      w.nextExpiry = some ⟨10⟩ ∧
      (∃ slot timer, w.slots.get? 1 = some slot ∧ slot.state.repairPending ∧ slot.expiry = some ⟨10⟩ ∧
        w.Fired ⟨12⟩ 1 slot timer) ∧
      ∃ slot, w.slots.get? 3 = some slot ∧ slot.state.repairPending ∧ slot.expiry = some ⟨15⟩ ∧
        3 ∉ (w.step (.sweep ⟨12⟩)).2.asked ∧
          (w.Untouched (w.step (.sweep ⟨12⟩)).1 3 ∨ w.LostInside (w.step (.sweep ⟨12⟩)).1 3) := by
  intro w
  have chronological : Chronological (gapHistory ++ [.sweep ⟨12⟩]) := by
    unfold Chronological
    decide +kernel
  have live : w.isGone = false := by decide +kernel
  obtain ⟨keeps, sweeps⟩ := queues_exact smallTsi patientConfig gapHistory live (by
    unfold Chronological
    decide +kernel)
  have waits : ∀ x e, w.slotIs x (fun slot => slot.state.repairPending ∧ slot.expiry = some e) →
      ∃ slot, w.slots.get? x = some slot ∧ slot.state.repairPending ∧ slot.expiry = some e := by
    intro x e h
    obtain ⟨slot, found, hslot⟩ := slotIs_iff.1 h
    exact ⟨slot, found, of_decide_eq_true hslot⟩
  obtain ⟨early, hearly, pending, hexpiry⟩ := waits 1 ⟨10⟩ (by decide +kernel)
  obtain ⟨late, hlate, pending', hexpiry'⟩ := waits 3 ⟨15⟩ (by decide +kernel)
  obtain ⟨timer, fired⟩ :=
    (sweeps ⟨12⟩ chronological 1 early ⟨10⟩ hearly pending hexpiry).1 (by decide)
  exact ⟨live, chronological, keeps, by decide +kernel,
    ⟨early, timer, hearly, pending, hexpiry, fired⟩, late, hlate, pending', hexpiry',
    (sweeps ⟨12⟩ chronological 3 late ⟨15⟩ hlate pending' hexpiry').2 (by decide)⟩

end Window

end ReliableMulticast
