import ReliableMulticast.Proofs.Firing

/-!
# Queues in the order of their expiry

All timers of one kind run equally long, so as long as time does not go back a timer that starts ends
no earlier than those of its kind that run already. An operation takes numbers out of the queues and
puts those whose timers it starts at the end (`Renews`), so each queue stays in the order in which its
timers end (`Punctual.renew`).
-/

namespace ReliableMulticast

/-! ### Moments -/

namespace Timestamp

variable {a b c : Timestamp} {d : Duration}

theorem le_refl (a : Timestamp) : a ≤ a := Nat.le_refl _

theorem le_trans (h : a ≤ b) (h' : b ≤ c) : a ≤ c := Nat.le_trans h h'

theorem toNat_add (a : Timestamp) (d : Duration) :
    (a + d).micros.toNat = min (a.micros.toNat + d.micros) 18446744073709551615 := by
  have hlast : last.micros.toNat = 18446744073709551615 := rfl
  change (UInt64.ofNat (min (a.micros.toNat + d.micros) last.micros.toNat)).toNat = _
  rw [hlast, UInt64.toNat_ofNat', Nat.mod_eq_of_lt (by
    change _ < 18446744073709551616
    omega)]

theorem add_le_add (h : a ≤ b) (d : Duration) : a + d ≤ b + d := by
  have : a.micros.toNat ≤ b.micros.toNat := h
  change (a + d).micros.toNat ≤ (b + d).micros.toNat
  rw [toNat_add, toNat_add]
  omega

end Timestamp

/-- How long a timer runs. -/
def WindowConfig.wait (c : WindowConfig) : Timer → Duration
  | .backOff => c.backOff
  | .waitNcf => c.ncfWait
  | .waitData => c.dataWait

namespace Window

variable {w w' : Window} {earlier now : Timestamp} {x : SeqNum} {slot : Slot} {idle : List SeqNum}

theorem expiryIn_eq_some_iff {t : Timer} {e : Timestamp} : w.expiryIn t x = some e ↔
    ∃ slot, w.slots.get? x = some slot ∧ slot.timer = some t ∧ slot.expiryOf t = e := by
  unfold expiryIn
  cases w.slots.get? x with
  | none => simp
  | some slot =>
    by_cases ht : slot.timer = some t
    · simp [ht, Slot.expiry]
    · simp [ht]

/-! ### The invariant -/

/-- Every queue is in the order in which its timers end, and no timer ends later than one that starts
now. -/
structure Punctual (w : Window) (now : Timestamp) : Prop where
  sorted : ∀ t, (w.queues.queue t).Pairwise fun x y =>
    ∀ a ∈ w.expiryIn t x, ∀ b ∈ w.expiryIn t y, a ≤ b
  bounded : ∀ t x, ∀ e ∈ w.expiryIn t x, e ≤ now + w.config.1.wait t

/-- Timers run on, stop or start at `now`, and those that start stand at the end of their queue. -/
structure Renews (w w' : Window) (now : Timestamp) : Prop where
  config : w'.config = w.config
  slots : ∀ t x, ∀ e ∈ w'.expiryIn t x, e ∈ w.expiryIn t x ∨ e = now + w.config.1.wait t
  queues : ∀ t, ∃ kept added, w'.queues.queue t = kept ++ added ∧ kept.Sublist (w.queues.queue t) ∧
    (∀ x ∈ kept, ∀ e ∈ w'.expiryIn t x, e ∈ w.expiryIn t x) ∧
      ∀ x ∈ added, ∀ e ∈ w'.expiryIn t x, e = now + w.config.1.wait t

theorem Punctual.mono (h : w.Punctual earlier) (hle : earlier ≤ now) : w.Punctual now :=
  ⟨h.sorted, fun t x e he => Timestamp.le_trans (h.bounded t x e he) (Timestamp.add_le_add hle _)⟩

theorem Punctual.renew (h : w.Punctual now) (hr : w.Renews w' now) : w'.Punctual now where
  sorted t := by
    obtain ⟨kept, added, hqueue, hsub, hkept, hadded⟩ := hr.queues t
    rw [hqueue, List.pairwise_append]
    refine ⟨?_, ?_, ?_⟩
    · refine ((h.sorted t).sublist hsub).imp_of_mem fun {x y} hx hy hxy a ha b hb => ?_
      exact hxy a (hkept x hx a ha) b (hkept y hy b hb)
    · refine List.pairwise_of_forall_mem_list fun x hx y hy a ha b hb => ?_
      rw [hadded x hx a ha, hadded y hy b hb]
      exact Timestamp.le_refl _
    · intro x hx y hy a ha b hb
      rw [hadded y hy b hb]
      exact h.bounded t x a (hkept x hx a ha)
  bounded t x e he := by
    rw [hr.config]
    rcases hr.slots t x e he with hold | rfl
    · exact h.bounded t x e hold
    · exact Timestamp.le_refl _

theorem punctual_of_none (hslots : ∀ x, w.slots.get? x = none) (hqueues : w.queues = .empty)
    (now : Timestamp) : w.Punctual now where
  sorted t := by
    rw [hqueues, TimerQueues.queue_empty]
    exact .nil
  bounded t x e he := by
    obtain ⟨slot, hs, -⟩ := expiryIn_eq_some_iff.1 he
    rw [hslots] at hs
    cases hs

/-! ### Operations that spare the timers -/

/-- What grows starts only first timers, of numbers that were not there. -/
theorem Grows.renews (h : w.Grows w' now) (timed : w.Timed idle) (config : w'.config = w.config) :
    w.Renews w' now := by
  -- A timer that runs in a slot that goes on ended then before as well.
  have before : ∀ {t x e}, w.slots.Contains x → e ∈ w'.expiryIn t x → e ∈ w.expiryIn t x := by
    intro t x e hx he
    obtain ⟨new, hnew, runs, rfl⟩ := expiryIn_eq_some_iff.1 he
    rcases h.slots hnew with ⟨old, hold, hgoes⟩ | ⟨outside, -⟩
    · exact expiryIn_eq_some_iff.2 ⟨old, hold, (hgoes.expiry_eq runs).1, by rw [hgoes.expiryOf]⟩
    · exact absurd hx outside
  have fresh : ∀ {t x e}, ¬ w.slots.Contains x → e ∈ w'.expiryIn t x → e = now + w.config.1.wait t := by
    intro t x e hx he
    obtain ⟨new, hnew, runs, rfl⟩ := expiryIn_eq_some_iff.1 he
    rcases h.slots hnew with ⟨old, hold, -⟩ | ⟨-, hfresh⟩
    · exact absurd (SlotRing.isSome_get?_iff.1 (by rw [hold]; rfl)) hx
    · rcases hfresh.timer with hstopped | ⟨hb, hexpiry⟩
      · cases hstopped.symm.trans runs
      · obtain rfl := Option.some.inj (hb.symm.trans runs)
        exact hexpiry
  refine ⟨config, fun t x e he => ?_, fun t => ?_⟩
  · by_cases hx : w.slots.Contains x
    · exact .inl (before hx he)
    · exact .inr (fresh hx he)
  · obtain ⟨added, hsub, hadded⟩ := h.queues t
    obtain ⟨kept, started, hqueue, hkept, hstarted⟩ := List.sublist_append_iff.1 hsub
    refine ⟨kept, started, hqueue, hkept, fun x hx e he => ?_, fun x hx e he => ?_⟩
    · obtain ⟨old, hold, -⟩ := timed.exists_slot (hkept.mem hx)
      exact before (SlotRing.isSome_get?_iff.1 (by rw [hold]; rfl)) he
    · obtain ⟨new, hnew, -⟩ := expiryIn_eq_some_iff.1 he
      have inside : w'.slots.Contains x := SlotRing.isSome_get?_iff.1 (by rw [hnew]; rfl)
      exact fresh ((hadded x (hstarted.mem hx)).2 inside) he

/-! ### Timers that start anew -/

theorem Renews.of_slots_eq (hslots : w'.slots = w.slots) (hqueues : w'.queues = w.queues)
    (config : w'.config = w.config) (now : Timestamp) : w.Renews w' now := by
  have same : ∀ t x, w'.expiryIn t x = w.expiryIn t x := fun t x => by
    rw [expiryIn, hslots, expiryIn]
  refine ⟨config, fun t x e he => .inl (same t x ▸ he), fun t => ?_⟩
  exact ⟨w.queues.queue t, [], by rw [hqueues, List.append_nil], .refl _,
    fun x _ e he => same t x ▸ he, fun x hx => absurd hx List.not_mem_nil⟩

/-- Numbers are taken out of the queues and others put at their ends. The slots of those that stay did
not change, and those that were put there start a timer. -/
theorem Renews.of_moved (taken : List SeqNum) {added : Timer → List SeqNum}
    (config : w'.config = w.config) (others : ∀ x ∉ taken, w'.slots.get? x = w.slots.get? x)
    (starts : ∀ x ∈ taken, ∀ t, ∀ e ∈ w'.expiryIn t x, e = now + w.config.1.wait t)
    (queues : ∀ t, ∃ kept, w'.queues.queue t = kept ++ added t ∧ kept.Sublist (w.queues.queue t) ∧
      (∀ x ∈ kept, x ∉ taken) ∧ added t ⊆ taken) : w.Renews w' now := by
  have same : ∀ t, ∀ x ∉ taken, w'.expiryIn t x = w.expiryIn t x := fun t x hx => by
    rw [expiryIn, others x hx, expiryIn]
  refine ⟨config, fun t x e he => ?_, fun t => ?_⟩
  · by_cases hx : x ∈ taken
    · exact .inr (starts x hx t e he)
    · exact .inl (same t x hx ▸ he)
  · obtain ⟨kept, hqueue, hsub, hkept, hadded⟩ := queues t
    exact ⟨kept, added t, hqueue, hsub, fun x hx e he => same t x (hkept x hx) ▸ he,
      fun x hx e he => starts x (hadded hx) t e he⟩

end Window

/-- A slot whose request is confirmed waits for its data from then on. -/
theorem Slot.timer_confirm (slot : Slot) (c : WindowConfig) (now : Timestamp) :
    (slot.confirm c now).timer = some .waitData ∧
      (slot.confirm c now).expiryOf .waitData = now + c.wait .waitData := by
  unfold Slot.confirm
  simp only
  split
  next ht => exact ⟨ht, rfl⟩
  · exact ⟨rfl, rfl⟩

/-- A slot whose timer ended runs the next one from then on, or none. -/
theorem Slot.timer_expire (slot : Slot) (c : WindowConfig) (now : Timestamp) (timer : Timer) :
    (slot.expire c now timer).1.timer = none ∨
      (slot.expire c now timer).1.timer = some timer.afterRequest ∧
        (slot.expire c now timer).1.expiryOf timer.afterRequest = now + c.wait timer.afterRequest := by
  cases timer with
  | backOff => exact .inr ⟨rfl, rfl⟩
  | waitNcf =>
    rw [expire, expireNcf]
    split
    · exact .inl rfl
    · exact .inr ⟨rfl, rfl⟩
  | waitData =>
    rw [expire, expireData]
    split
    · exact .inl rfl
    · exact .inr ⟨rfl, rfl⟩

namespace Window

variable {w w' : Window} {earlier now : Timestamp} {x : SeqNum} {slot : Slot} {idle : List SeqNum}

theorem renews_restart (timed : w.Timed []) (found : w.slots.get? slot.sequence = some slot)
    {timer : Timer} (runs : slot.timer = some timer) (now : Timestamp) :
    w.Renews (w.restart slot timer now) now := by
  have hget : ∀ x, (w.restart slot timer now).slots.get? x =
      (w.modify slot.sequence (Slot.confirm w.config.1 now)).slots.get? x := fun x => rfl
  have hqueue : ∀ t, (w.restart slot timer now).queues.queue t =
      (w.queues.erase timer slot.sequence).queue t ++ if t = .waitData then [slot.sequence] else [] := by
    intro t
    change ((w.queues.erase timer slot.sequence).pushAll .waitData [slot.sequence]).queue t = _
    rw [TimerQueues.pushAll, TimerQueues.queue_set]
    split
    next ht => rw [ht]
    · rw [List.append_nil]
  refine .of_moved [slot.sequence] rfl (fun x hx => ?_) (fun x hx t e he => ?_) fun t =>
    ⟨_, hqueue t, w.queues.sublist_erase timer t slot.sequence, fun x hx => ?_, ?_⟩
  · rw [hget, get?_modify, if_neg fun h => hx (List.mem_singleton.2 h)]
  · obtain rfl := List.mem_singleton.1 hx
    obtain ⟨new, hnew, ht, rfl⟩ := expiryIn_eq_some_iff.1 he
    rw [hget, get?_modify, if_pos rfl, found] at hnew
    obtain rfl := Option.some.inj hnew
    obtain ⟨htimer, hexpiry⟩ := slot.timer_confirm w.config.1 now
    obtain rfl := Option.some.inj (htimer.symm.trans ht)
    exact hexpiry
  · -- The slot's number stood in the queue of its timer only, and left it.
    rintro hmem
    obtain rfl := List.mem_singleton.1 hmem
    have hcount := List.count_pos_iff.2 hx
    rw [TimerQueues.count_erase, timed.queued, timerOf_of_get? found, runs] at hcount
    by_cases ht : t = timer
    · simp [ht] at hcount
    · simp [Ne.symm ht] at hcount
  · split
    · exact List.Subset.refl _
    · exact List.nil_subset _

theorem renews_acceptNcf (timed : w.Timed []) (s : SeqNum) (sent now : Timestamp) :
    w.Renews (w.acceptNcf s sent now).1 now := by
  rcases w.acceptNcf_cases s sent now with ⟨he, -⟩ | ⟨slot, timer, -, found, runs, -, he⟩ <;> rw [he]
  · exact .of_slots_eq rfl rfl rfl now
  · exact renews_restart timed found runs now

/-- The queues after the timers of one kind that are due ended. -/
theorem Timed.queue_endDue (timed : w.Timed idle) (now : Timestamp) (timer t : Timer) :
    (w.endDue now timer).1.queues.queue t =
      (if t = timer then w.later now timer else w.queues.queue t) ++
        if t = timer.afterRequest then Ended.requesting (w.endDue now timer).2 else [] := by
  rw [(timed.fires_endDue now timer).2, TimerQueues.pushAll, TimerQueues.queue_set,
    TimerQueues.queue_set, TimerQueues.queue_set]
  by_cases ht : t = timer.afterRequest
  · subst ht
    rw [if_pos rfl, if_pos rfl]
  · rw [if_neg ht, if_neg ht, List.append_nil]

/-- What stays in the queues was not due. -/
theorem Timed.not_mem_due_of_kept (timed : w.Timed idle) {t : Timer}
    (hx : x ∈ if t = timer then w.later now timer else w.queues.queue t) : x ∉ w.due now timer := by
  intro hdue
  split at hx
  · have hnodup := timed.due_append_later now timer ▸ timed.nodup_queue timer
    exact (List.nodup_append.1 hnodup).2.2 x hdue x hx rfl
  next ht =>
    obtain ⟨slot, found, runs⟩ := timed.exists_slot hx
    obtain ⟨other, hother, runs', -⟩ := exists_of_mem_due hdue
    obtain rfl := Option.some.inj (found.symm.trans hother)
    exact ht (Option.some.inj (runs.symm.trans runs'))

theorem renews_endDue (timed : w.Timed idle) (now : Timestamp) (timer : Timer) :
    w.Renews (w.endDue now timer).1 now := by
  have fires := (timed.fires_endDue now timer).1
  have requesting : Ended.requesting (w.endDue now timer).2 = _ := fires.sequences_filter Option.isSome
  refine .of_moved (w.due now timer) (Keeps.of_frame_eq (w.frame_endDue now timer)).config
    fires.others (fun x hx t e he => ?_) fun t =>
      ⟨_, timed.queue_endDue now timer t, ?_, fun x hx => timed.not_mem_due_of_kept hx, ?_⟩
  · obtain ⟨new, hnew, ht, rfl⟩ := expiryIn_eq_some_iff.1 he
    rw [fires.slots x hx] at hnew
    obtain ⟨old, -, rfl⟩ := Option.map_eq_some_iff.1 hnew
    rcases old.timer_expire w.config.1 now timer with hnone | ⟨hnext, hexpiry⟩
    · cases hnone.symm.trans ht
    · obtain rfl := Option.some.inj (hnext.symm.trans ht)
      exact hexpiry
  · split
    next ht =>
      rw [ht, ← timed.due_append_later now timer]
      exact List.sublist_append_right ..
    · exact .refl _
  · split
    · rw [requesting]
      exact List.filter_sublist.subset
    · exact List.nil_subset _

theorem Punctual.endAllDue (h : w.Punctual now) (hs : w.Sound) (timed : w.Timed []) :
    (w.endAllDue now).1.Punctual now :=
  endAllDue_induction (P := fun v _ => v.Punctual now) hs timed now h
    fun _ _ timer _ timed h => h.renew (renews_endDue timed now timer)

theorem Punctual.sweepAll (h : w.Punctual now) (hs : w.Sound) (timed : w.Timed []) :
    (w.sweepAll now).1.Punctual now := by
  have ended := h.endAllDue hs timed
  have timed' := timed.endAllDue now
  unfold Window.sweepAll
  split
  · exact h
  · generalize w.endAllDue now = r at ended timed'
    have lost := ((onlyLoses_loseAll (Ended.exhausted r.2) r.1).trans (onlyLoses_resolve _)).goesOn
    refine ended.renew ((lost.grows now).renews timed' ?_)
    have resolved := frame_resolve ((Ended.exhausted r.2).foldl loseApdu r.1)
    rw [frame_foldl frame_loseApdu] at resolved
    exact congrArg Frame.config resolved

/-! ### Histories -/

/-- Every operation keeps the queues in order. -/
theorem Punctual.step (h : w.Punctual now) (hs : w.Sound) (timed : w.Timed [])
    (live : w.isGone = false) {op : Op} (part : op.isPart) (time : ∀ t ∈ op.time?, t = now) :
    (w.step op).1.Punctual now := by
  by_cases hop : op = .shutdown
  · subst hop
    simp only [Window.step, shutdown, live, Bool.false_eq_true, if_false]
    exact punctual_of_none (SlotRing.get?_reset w.slots w.trail) rfl now
  obtain ⟨_, hmoves, -⟩ := step_spec_of_ne hs live part hop
  cases spares : op.sparesTimers with
  | true => exact h.renew ((grows_step hs part spares time).renews timed hmoves.keeps.config)
  | false =>
    cases op with
    | confirmNak s sent t =>
      obtain rfl := time t rfl
      simp only [Window.step, confirmNak, whileLive_of_live live]
      exact h.renew (renews_acceptNcf timed s sent t)
    | sweep t =>
      obtain rfl := time t rfl
      rw [step_sweep live]
      exact h.sweepAll hs timed
    | _ => cases spares

/-- The times of the operations never go back. -/
def Chronological (ops : List Op) : Prop := (ops.filterMap Op.time?).Pairwise (· ≤ ·)

/-- The parts of an operation are done at its time. -/
theorem Op.time?_of_mem_parts {op part : Op} (hpart : part ∈ op.parts) : part.time? = op.time? := by
  cases op with
  | repair g decode now =>
    change part ∈ repairs g decode now g.missing at hpart
    generalize g.missing = numbers at hpart
    induction numbers with
    | nil => cases hpart
    | cons s numbers ih =>
      rw [repairs] at hpart
      split at hpart
      · cases hpart
      · rcases List.mem_cons.1 hpart with rfl | hpart
        · rfl
        · exact ih hpart
  | _ =>
    obtain rfl := List.mem_singleton.1 hpart
    rfl

theorem punctual_run_parts (tsi : Tsi) (config : ValidConfig) {ops more : List Op}
    (h : ((create tsi config).run ops).Punctual now) (hparts : ∀ op ∈ ops ++ more, op.isPart)
    (time : ∀ op ∈ more, ∀ t ∈ op.time?, t = now) :
    ((create tsi config).run (ops ++ more)).Punctual now := by
  induction more using List.reverseRecOn with
  | nil => rwa [List.append_nil]
  | append_singleton more op ih =>
    have before := ih (fun x hx => hparts x (by simp at hx ⊢; tauto))
      fun x hx => time x (List.mem_append_left _ hx)
    have part := hparts op (by simp)
    rw [← List.append_assoc, run_concat]
    cases live : ((create tsi config).run (ops ++ more)).isGone with
    | true => rwa [step_of_gone live part]
    | false =>
      exact before.step (sound_run (sound_create tsi config) live).1
        (timed_run tsi config (ops ++ more)) live part (time op (by simp))

/-- If time does not go back, the queues are in order at any later moment. -/
theorem punctual_run (tsi : Tsi) (config : ValidConfig) {ops : List Op}
    (chronological : Chronological ops) (late : ∀ t ∈ ops.filterMap Op.time?, t ≤ now) :
    ((create tsi config).run ops).Punctual now := by
  rw [← run_parts]
  induction ops using List.reverseRecOn generalizing now with
  | nil => exact punctual_of_none (get?_create tsi config) rfl now
  | append_singleton ops op ih =>
    have hconcat : parts (ops ++ [op]) = parts ops ++ op.parts := by
      rw [parts_append]
      exact congrArg _ (List.flatMap_singleton ..)
    rw [Chronological, List.filterMap_append, List.pairwise_append] at chronological
    rw [List.filterMap_append] at late
    obtain ⟨chronological, -, before⟩ := chronological
    rw [hconcat]
    cases htime : op.time? with
    | none =>
      refine punctual_run_parts tsi config (ih chronological fun t ht => ?_)
        (hconcat ▸ isPart_of_mem_parts) fun part hpart t ht => ?_
      · exact late t (List.mem_append_left _ ht)
      · rw [Op.time?_of_mem_parts hpart, htime] at ht
        cases ht
    | some last =>
      have hlast : last ∈ [op].filterMap Op.time? := List.mem_filterMap.2 ⟨op, by simp, htime⟩
      have punctual := punctual_run_parts tsi config
        (ih chronological fun t ht => before t ht last hlast) (hconcat ▸ isPart_of_mem_parts)
        fun part hpart t ht => by
          rw [Op.time?_of_mem_parts hpart, htime] at ht
          exact (Option.some.inj ht).symm
      exact punctual.mono (late last (List.mem_append_right _ hlast))

end Window

end ReliableMulticast
