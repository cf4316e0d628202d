import Mathlib.Logic.Function.Iterate
import ReliableMulticast.Proofs.Timekeeping

/-!
# Moving the lead step by step

A lead that jumps ahead leaves the window as one that walks there number by number. Both do two things
over and over: the trail moves on by one number (`moveTrail`), and one more placeholder is appended
(`addNext`). A jump moves the trail first and fills up then (`advanceLead_eq`), a step does one of each.
As a slot leaves at the trail and a placeholder comes in at the lead, the order makes no difference
(`Tracks.evictTrail_addPlaceholders`), not even where the window runs empty and jumps: a number that is
skipped costs as much as a placeholder that is evicted at once.
-/

namespace ReliableMulticast

/-! ### Queues -/

namespace TimerQueues

variable {slot : Slot} {s : SeqNum}

theorem unqueue_push (q : TimerQueues) (other : slot.sequence ≠ s) :
    (q.push .backOff s).unqueue slot = (q.unqueue slot).push .backOff s := by
  have herase : ∀ l : List SeqNum, (l ++ [s]).erase slot.sequence = l.erase slot.sequence ++ [s] := by
    intro l
    rw [List.erase_append]
    split
    · rfl
    next absent => rw [List.erase_of_not_mem absent, List.erase_of_not_mem (by simpa using other)]
  unfold unqueue
  cases slot.timer with
  | none => rfl
  | some t =>
    cases t with
    | backOff => simp [push, pushAll, erase, set, queue, herase]
    | waitNcf | waitData => rfl

theorem unqueue_push_self (q : TimerQueues) (timer : slot.timer = some .backOff)
    (absent : slot.sequence ∉ q.queue .backOff) :
    (q.push .backOff slot.sequence).unqueue slot = q := by
  simp [unqueue, timer, push, pushAll, erase, set, queue,
    List.erase_append_right _ (show slot.sequence ∉ q.backOff from absent)]

end TimerQueues

namespace Window

variable {w : Window}

/-! ### One number more and one number less -/

/-- The window with one more placeholder, whose first timer starts at `now`. -/
def addNext (now : Timestamp) (w : Window) : Window :=
  { addPlaceholder now w w.next with queues := w.queues.push .backOff w.next }

/-- The window with its trail moved on by one number. -/
def moveTrail (w : Window) : Window :=
  if w.slots.size = 0 then (w.skipTo w.trail.next).clampCommit else w.evictTrail

/-- The window whose lead is moved to each of the numbers in turn. -/
def walk (now : Timestamp) (numbers : List SeqNum) (w : Window) : Window :=
  numbers.foldl (fun v x => v.advanceLead x now) w

/-- The rules that moving the lead builds on. -/
structure Tracks (w : Window) : Prop where
  sound : w.Sound
  timed : w.Timed []
  defined : w.isDefined

/-- The window with other slots and queues. -/
def holding (w : Window) (slots : SlotRing) (queues : TimerQueues) : Window :=
  { w with slots, queues }

/-- The accounts of a window that its first slot leaves. -/
def passTrail (w : Window) (slot : Slot) : Window :=
  if w.trail.Before w.commitTrail then w
  else
    { w with
      commitTrail := w.trail.next
      commitLead := w.trail.next
      counters := w.counters.addLosses (if slot.state = .lost then 0 else 1)
      unreportedLosses := min (w.unreportedLosses + 1) maxReported }

/-! ### Appending -/

/-- The slot that `addNext` appends. -/
def newSlot (w : Window) (now : Timestamp) : Slot :=
  .placeholder w.next now (now + w.config.1.backOff)

theorem addNext_eq (room : w.slots.size < w.capacity) (now : Timestamp) :
    w.addNext now = w.holding (w.slots.append (w.newSlot now)) (w.queues.push .backOff w.next) := by
  have hfault : (w.fault <|> w.slots.refusal? (w.newSlot now)) = w.fault := by
    rw [SlotRing.refusal?_eq_none_iff.2 ⟨rfl, room⟩]
    cases w.fault <;> rfl
  rw [newSlot] at hfault
  rw [addNext, addPlaceholder, append, hfault]
  rfl

theorem places_addNext (room : w.slots.size < w.capacity) (now : Timestamp) :
    (w.addNext now).trail = w.trail ∧ (w.addNext now).slots.size = w.slots.size + 1 ∧
      (w.addNext now).next = w.next.next ∧ (w.addNext now).capacity = w.capacity := by
  obtain ⟨hnext, hsize, hcap⟩ := places_append (show (w.newSlot now).sequence = w.next from rfl) room
  exact ⟨SlotRing.trail_append .., hsize, hnext, hcap⟩

theorem Tracks.addNext (h : w.Tracks) (room : w.slots.size < w.capacity) (now : Timestamp) :
    (w.addNext now).Tracks := by
  have placed := (Move.addPlaceholder now h.defined room).sound h.sound
  have hgap := w.next.gap_next_self
  have hsame : w.addNext now = w.addPlaceholders w.next.next now := by
    rw [addPlaceholders, SeqNum.upTo_eq_run (by omega), hgap]
    rfl
  exact ⟨placed.of_slots_eq rfl rfl, hsame ▸ h.timed.addPlaceholders _ now (by omega), h.defined⟩

/-- The queues make no difference to placeholders that are appended. -/
theorem foldl_addPlaceholder_aside (now : Timestamp) (numbers : List SeqNum) (w : Window)
    (queues : TimerQueues) :
    numbers.foldl (addPlaceholder now) { w with queues } =
      { numbers.foldl (addPlaceholder now) w with queues } := by
  induction numbers generalizing w with
  | nil => rfl
  | cons s numbers ih => exact ih (addPlaceholder now w s)

/-- Placeholders are appended and queued one by one. -/
theorem foldl_addPlaceholder_eq (now : Timestamp) {n : Nat} (room : w.slots.size + n ≤ w.capacity) :
    { (w.next.run n).foldl (addPlaceholder now) w with
        queues := w.queues.pushAll .backOff (w.next.run n) } = (Window.addNext now)^[n] w := by
  induction n generalizing w with
  | zero => rw [SeqNum.run, TimerQueues.pushAll_nil, List.foldl_nil, Function.iterate_zero_apply]
  | succ n ih =>
    obtain ⟨-, hsize, hnext, hcap⟩ := places_addNext (w := w) (by omega) now
    have aside := foldl_addPlaceholder_aside now (w.next.next.run n) (addPlaceholder now w w.next)
      (w.queues.push .backOff w.next)
    rw [Function.iterate_succ_apply, ← ih (by omega), hnext, SeqNum.run, List.foldl_cons,
      TimerQueues.pushAll_cons]
    exact congrArg (fun v : Window =>
      { v with queues := (w.queues.push .backOff w.next).pushAll .backOff (w.next.next.run n) })
      aside.symm

theorem addPlaceholders_eq_iterate (stop : SeqNum) (now : Timestamp)
    (room : w.slots.size + w.next.gap stop ≤ w.capacity) :
    w.addPlaceholders stop now = (addNext now)^[w.next.gap stop] w := by
  have hmax : w.capacity ≤ 2147483648 := w.slots.capacity_le
  rw [← foldl_addPlaceholder_eq now room, addPlaceholders, SeqNum.upTo_eq_run (by omega)]

/-- What appending `n` placeholders leaves: the trail where it is and the lead `n` numbers on. -/
structure Filled (w w' : Window) (n : Nat) : Prop where
  tracks : w'.Tracks
  trail : w'.trail = w.trail
  size : w'.slots.size = w.slots.size + n
  next : w'.next = w.next + n
  capacity : w'.capacity = w.capacity

theorem Tracks.filled_iterate {n : Nat} (h : w.Tracks) (room : w.slots.size + n ≤ w.capacity)
    (now : Timestamp) : w.Filled ((Window.addNext now)^[n] w) n := by
  induction n with
  | zero => exact ⟨h, rfl, rfl, (SeqNum.add_zero _).symm, rfl⟩
  | succ n ih =>
    obtain ⟨tracks, trail, size, next, capacity⟩ := ih (by omega)
    obtain ⟨htrail, hsize, hnext, hcap⟩ :=
      places_addNext (w := (Window.addNext now)^[n] w) (by omega) now
    rw [Function.iterate_succ_apply']
    refine ⟨tracks.addNext (by omega) now, htrail.trans trail, by omega, ?_, hcap.trans capacity⟩
    rw [hnext, next, SeqNum.add_next]

theorem Tracks.filled (h : w.Tracks) (stop : SeqNum)
    (room : w.slots.size + w.next.gap stop ≤ w.capacity) (now : Timestamp) :
    w.Filled (w.addPlaceholders stop now) (w.next.gap stop) :=
  addPlaceholders_eq_iterate stop now room ▸ h.filled_iterate room now

/-- Filling up in two goes is filling up at once. -/
theorem Tracks.addPlaceholders_addPlaceholders {mid stop : SeqNum} (h : w.Tracks)
    (between : w.next.gap mid ≤ w.next.gap stop) (room : w.slots.size + w.next.gap stop ≤ w.capacity)
    (now : Timestamp) :
    (w.addPlaceholders mid now).addPlaceholders stop now = w.addPlaceholders stop now := by
  have filled := h.filled mid (by omega) now
  have hnext : (w.addPlaceholders mid now).next = mid := by rw [filled.next, SeqNum.add_gap]
  have hgap : mid.gap stop = w.next.gap stop - w.next.gap mid := SeqNum.gap_split between
  have hsize := filled.size
  have hcap := filled.capacity
  rw [addPlaceholders_eq_iterate stop now (by rw [hnext]; omega), hnext, hgap,
    addPlaceholders_eq_iterate mid now (by omega), ← Function.iterate_add_apply,
    Nat.sub_add_cancel between, addPlaceholders_eq_iterate stop now room]

/-! ### Evicting -/

theorem evictTrail_holding {slots slots' : SlotRing} {slot : Slot} (queues : TimerQueues)
    (trail : slots.trail = w.trail) (hpop : slots.popTrail? = some (slot, slots')) :
    (w.holding slots queues).evictTrail = (w.passTrail slot).holding slots' (queues.unqueue slot) := by
  have hpop' : (w.holding slots queues).slots.popTrail? = some (slot, slots') := hpop
  have htrail : (w.holding slots queues).trail = w.trail := trail
  have hdrop : slots'.trail = w.trail.next := by rw [(SlotRing.popTrail?_eq_some hpop).2.2.1, trail]
  have hcommit : (w.holding slots queues).commitTrail = w.commitTrail := rfl
  rw [evictTrail, hpop', passTrail]
  simp only [htrail, hdrop, hcommit]
  split <;> rfl

theorem evictTrail_eq {slot : Slot} {slots : SlotRing} (hpop : w.slots.popTrail? = some (slot, slots)) :
    w.evictTrail = (w.passTrail slot).holding slots (w.queues.unqueue slot) :=
  evictTrail_holding w.queues rfl hpop

theorem places_evictTrail (nonempty : 0 < w.slots.size) :
    w.evictTrail.trail = w.trail.next ∧ w.evictTrail.slots.size + 1 = w.slots.size ∧
      w.evictTrail.next = w.next ∧ w.evictTrail.capacity = w.capacity := by
  obtain ⟨slot, slots, hpop⟩ := Sound.exists_popTrail? nonempty
  obtain ⟨-, hcap, htrail, hsize, -⟩ := SlotRing.popTrail?_eq_some hpop
  rw [evictTrail_eq hpop]
  exact ⟨htrail, hsize, SlotRing.next_of_popTrail? hpop, hcap⟩

/-- A placeholder that is appended makes no difference to a slot that is evicted. -/
theorem evictTrail_addNext (nonempty : 0 < w.slots.size) (room : w.slots.size < w.capacity)
    (now : Timestamp) : (w.addNext now).evictTrail = w.evictTrail.addNext now := by
  obtain ⟨slot, slots, hpop⟩ := Sound.exists_popTrail? nonempty
  obtain ⟨-, hsize, hnext, hcap⟩ := places_evictTrail nonempty
  have hevict := evictTrail_eq hpop
  have other : slot.sequence ≠ w.next := by
    rw [SlotRing.sequence_of_get? (SlotRing.popTrail?_eq_some hpop).1]
    exact SlotRing.trail_ne_next nonempty
  have hconfig : w.evictTrail.config = w.config := by
    rw [hevict, passTrail]
    split <;> rfl
  have hnew : w.evictTrail.newSlot now = w.newSlot now := by rw [newSlot, newSlot, hnext, hconfig]
  calc (w.addNext now).evictTrail
    _ = (w.passTrail slot).holding (slots.append (w.newSlot now))
          ((w.queues.push .backOff w.next).unqueue slot) := by
        rw [addNext_eq room]
        exact evictTrail_holding _ (SlotRing.trail_append ..)
          (SlotRing.popTrail?_append hpop rfl room)
    _ = w.evictTrail.holding (slots.append (w.newSlot now))
          ((w.queues.unqueue slot).push .backOff w.next) := by
        rw [TimerQueues.unqueue_push _ other, hevict]
        rfl
    _ = w.evictTrail.addNext now := by
        rw [addNext_eq (by omega), hnew, hnext, hevict]
        rfl

/-- A placeholder that is evicted from an otherwise empty window is a number that was skipped. -/
theorem Tracks.evictTrail_addNext_of_empty (h : w.Tracks) (empty : w.slots.size = 0) (now : Timestamp) :
    (w.addNext now).evictTrail = w.moveTrail := by
  have room : w.slots.size < w.capacity := empty ▸ Sound.capacity_pos w
  have front : ¬ w.trail.Before w.commitTrail := by
    have hplace := h.sound.place_commitTrail_le
    rw [SeqNum.before_iff]
    unfold place at hplace
    omega
  have absent : (w.newSlot now).sequence ∉ w.queues.queue .backOff := by
    intro hmem
    obtain ⟨slot, hs, -⟩ := h.timed.exists_slot hmem
    cases (get?_of_empty empty _).symm.trans hs
  calc (w.addNext now).evictTrail
    _ = (w.passTrail (w.newSlot now)).holding (w.slots.reset w.trail.next)
          ((w.queues.push .backOff w.next).unqueue (w.newSlot now)) := by
        rw [addNext_eq room]
        exact evictTrail_holding _ (SlotRing.trail_append ..)
          (SlotRing.popTrail?_append_of_empty empty rfl)
    _ = (w.passTrail (w.newSlot now)).holding (w.slots.reset w.trail.next) w.queues :=
        congrArg _ (TimerQueues.unqueue_push_self w.queues rfl absent)
    _ = w.moveTrail := by
        rw [moveTrail, if_pos empty, h.sound.skip_eq empty w.trail.before_next,
          w.trail.gap_next_self, passTrail, if_neg front]
        rfl

/-! ### Moving the trail -/

/-- What moving the trail on by `n` numbers leaves. -/
structure Shortened (w w' : Window) (n : Nat) : Prop where
  tracks : w'.Tracks
  trail : w'.trail = w.trail + n
  size : w'.slots.size = w.slots.size - n
  capacity : w'.capacity = w.capacity
  slots : ∀ {x slot}, w'.slots.get? x = some slot → w.slots.get? x = some slot

/-- The lead moves only when the trail meets it. -/
theorem Shortened.next {w' : Window} {n : Nat} (h : w.Shortened w' n) :
    w'.next = w.next + (n - w.slots.size) := by
  have htrail : w'.slots.trail = w.trail + n := h.trail
  rw [Window.next, SlotRing.next, htrail, h.size, SeqNum.add_add]
  change _ = w.trail + w.slots.size + (n - w.slots.size)
  rw [SeqNum.add_add]
  congr 1
  omega

theorem Shortened.trans {w' w'' : Window} {m n : Nat} (h : w.Shortened w' m)
    (h' : w'.Shortened w'' n) : w.Shortened w'' (m + n) where
  tracks := h'.tracks
  trail := by rw [h'.trail, h.trail, SeqNum.add_add]
  size := by rw [h'.size, h.size, Nat.sub_sub]
  capacity := h'.capacity.trans h.capacity
  slots := fun hs => h.slots (h'.slots hs)

/-- An empty window that jumps. -/
theorem Tracks.shortened_skip {target : SeqNum} (h : w.Tracks) (empty : w.slots.size = 0)
    (ahead : w.trail.Before target) :
    w.Shortened (w.skipTo target).clampCommit (w.trail.gap target) := by
  have hskip := h.sound.skip_eq empty ahead
  have hmove := Move.skip target h.defined empty ahead
  have timed : (w.skipTo target).clampCommit.Timed [] :=
    (h.timed.skipTo target fun _ => empty).of_slots_eq rfl rfl
  refine ⟨⟨hmove.sound h.sound, timed, hmove.keeps.isDefined h.defined⟩, ?_, ?_, ?_, fun {x slot} hs => ?_⟩
  · rw [hskip, SeqNum.add_gap]
    rfl
  · rw [hskip, empty, Nat.zero_sub]
    rfl
  · rw [hskip]
    rfl
  · rw [hskip] at hs
    cases (SlotRing.get?_reset w.slots target x).symm.trans hs

theorem Tracks.shortened_evictTrail (h : w.Tracks) (nonempty : 0 < w.slots.size) :
    w.Shortened w.evictTrail 1 := by
  obtain ⟨_, -, hmoves, -, -⟩ := moves_evictTrail h.sound nonempty
  obtain ⟨htrail, hsize, -, hcap⟩ := places_evictTrail nonempty
  refine ⟨⟨hmoves.sound h.sound, h.timed.evictTrail, hmoves.keeps.isDefined h.defined⟩, htrail, by omega,
    hcap, fun {x slot} hs => ?_⟩
  obtain ⟨first, slots, hpop⟩ := Sound.exists_popTrail? nonempty
  obtain ⟨-, -, -, -, hget⟩ := SlotRing.popTrail?_eq_some hpop
  rw [evictTrail_eq hpop] at hs
  change slots.get? x = some slot at hs
  rw [hget] at hs
  split at hs
  · cases hs
  · exact hs

theorem Tracks.shortened_moveTrail (h : w.Tracks) : w.Shortened w.moveTrail 1 := by
  unfold moveTrail
  split
  next empty =>
    exact w.trail.gap_next_self ▸ h.shortened_skip empty w.trail.before_next
  next nonempty => exact h.shortened_evictTrail (Nat.pos_of_ne_zero nonempty)

theorem Tracks.shortened_iterate (h : w.Tracks) (n : Nat) : w.Shortened (moveTrail^[n] w) n := by
  induction n with
  | zero => exact ⟨h, (SeqNum.add_zero _).symm, rfl, rfl, id⟩
  | succ n ih =>
    rw [Function.iterate_succ_apply']
    exact ih.trans ih.tracks.shortened_moveTrail

theorem Tracks.evict_eq_iterate {n : Nat} (h : w.Tracks) (hn : n ≤ w.slots.size) :
    evict n w = moveTrail^[n] w := by
  induction n generalizing w with
  | zero => rfl
  | succ n ih =>
    have hmove : w.moveTrail = w.evictTrail := if_neg (by omega)
    have shortened := h.shortened_moveTrail
    have hsize := shortened.size
    rw [evict, Function.iterate_succ_apply, ← hmove, ih shortened.tracks (by omega)]

/-- An empty window that jumped and moves on by one number jumped that much farther. -/
theorem Tracks.moveTrail_skip {n : Nat} (h : w.Tracks) (empty : w.slots.size = 0) (pos : 0 < n)
    (hn : n < 2147483648) :
    (w.skipTo (w.trail + n)).clampCommit.moveTrail = (w.skipTo (w.trail + (n + 1))).clampCommit := by
  have hgap : w.trail.gap (w.trail + n) = n := SeqNum.gap_add _ (by omega)
  have hgap' : w.trail.gap (w.trail + (n + 1)) = n + 1 := SeqNum.gap_add _ (by omega)
  have ahead : w.trail.Before (w.trail + n) := SeqNum.before_iff.2 (by omega)
  have ahead' : w.trail.Before (w.trail + (n + 1)) := SeqNum.before_iff.2 (by omega)
  have shortened := h.shortened_skip empty ahead
  have hsize : (w.skipTo (w.trail + n)).clampCommit.slots.size = 0 := by
    rw [shortened.size, empty, Nat.zero_sub]
  have htrail : (w.skipTo (w.trail + n)).clampCommit.trail = w.trail + n := by
    rw [shortened.trail, hgap]
  have hone : (w.trail + n).gap (w.trail + (n + 1)) = 1 := by
    rw [← SeqNum.add_next, SeqNum.gap_next_self]
  -- Losses that are told in two goes are capped as those told at once.
  have hcapped : min (min (w.unreportedLosses + n) maxReported + 1) maxReported =
      min (w.unreportedLosses + (n + 1)) maxReported := by omega
  rw [moveTrail, if_pos hsize, shortened.tracks.sound.skip_eq hsize (SeqNum.before_next _), htrail,
    SeqNum.add_next, hone, h.sound.skip_eq empty ahead', hgap', h.sound.skip_eq empty ahead, hgap,
    hcapped]
  rfl

/-- An empty window that jumps skips the numbers one by one. -/
theorem Tracks.skip_eq_iterate {n : Nat} (h : w.Tracks) (empty : w.slots.size = 0) (pos : 0 < n)
    (hn : n ≤ 2147483648) : (w.skipTo (w.trail + n)).clampCommit = moveTrail^[n] w := by
  induction n, pos using Nat.le_induction with
  | base => exact (if_pos empty).symm
  | succ n pos ih =>
    rw [Function.iterate_succ_apply', ← ih (by omega), h.moveTrail_skip empty pos (by omega)]

theorem Tracks.makeRoom_eq {last : SeqNum} (h : w.Tracks) (ahead : w.next.gap last < 2147483648) :
    w.makeRoom last = moveTrail^[w.slots.size + w.next.gap last + 1 - w.capacity] w := by
  rcases makeRoom_cases h.sound ahead with ⟨hle, he⟩ | ⟨target, -, hgap, hempty, hbefore, he⟩
  · rw [he, h.evict_eq_iterate hle]
  · have hevict := h.evict_eq_iterate (Nat.le_refl _)
    have tracks : (evict w.slots.size w).Tracks := hevict ▸ (h.shortened_iterate _).tracks
    obtain ⟨hone, hfar⟩ := SeqNum.before_iff.1 hbefore
    have hskip := tracks.skip_eq_iterate hempty hone hfar
    rw [SeqNum.add_gap] at hskip
    rw [he, hskip, hevict, ← Function.iterate_add_apply, ← hgap, hevict]

/-- A lead that jumps leaves room first and fills up then. -/
theorem Tracks.advanceLead_eq {x : SeqNum} (h : w.Tracks) (ahead : w.next.gap x < 2147483648)
    (now : Timestamp) :
    w.advanceLead x now =
      (moveTrail^[w.slots.size + w.next.gap x + 1 - w.capacity] w).addPlaceholders x.next now := by
  rw [advanceLead, h.makeRoom_eq ahead]

/-! ### Either order -/

theorem evictTrail_iterate {n : Nat} (nonempty : 0 < w.slots.size) (room : w.slots.size + n ≤ w.capacity)
    (now : Timestamp) : ((addNext now)^[n] w).evictTrail = (addNext now)^[n] w.evictTrail := by
  induction n generalizing w with
  | zero => rfl
  | succ n ih =>
    obtain ⟨-, hsize, -, hcap⟩ := places_addNext (w := w) (by omega) now
    rw [Function.iterate_succ_apply, ih (by omega) (by omega), evictTrail_addNext nonempty (by omega),
      ← Function.iterate_succ_apply]

/-- The first slot is evicted after placeholders came in as the trail is moved on before. -/
theorem Tracks.evictTrail_addPlaceholders {stop : SeqNum} (h : w.Tracks)
    (some : 0 < w.slots.size + w.next.gap stop) (room : w.slots.size + w.next.gap stop ≤ w.capacity)
    (now : Timestamp) :
    (w.addPlaceholders stop now).evictTrail = w.moveTrail.addPlaceholders stop now := by
  have hmax : w.capacity ≤ 2147483648 := w.slots.capacity_le
  have shortened := h.shortened_moveTrail
  have hsize := shortened.size
  have hcap := shortened.capacity
  have hnext := shortened.next
  rw [addPlaceholders_eq_iterate stop now room]
  by_cases empty : w.slots.size = 0
  · obtain ⟨n, hn⟩ : ∃ n, w.next.gap stop = n + 1 := ⟨w.next.gap stop - 1, by omega⟩
    have hgap : w.moveTrail.next.gap stop = n := by
      rw [hnext, empty, ← SeqNum.add_gap w.next stop, hn, SeqNum.gap_add_add _ (by omega)] <;> omega
    obtain ⟨-, hone, -, hsame⟩ := places_addNext (w := w) (by omega) now
    rw [hn, Function.iterate_succ_apply, evictTrail_iterate (by omega) (by omega),
      h.evictTrail_addNext_of_empty empty, addPlaceholders_eq_iterate stop now (by omega), hgap]
  · have hgap : w.moveTrail.next = w.next := by
      rw [hnext, show 1 - w.slots.size = 0 by omega, SeqNum.add_zero]
    have hmove : w.moveTrail = w.evictTrail := if_neg empty
    rw [evictTrail_iterate (by omega) room, addPlaceholders_eq_iterate stop now (by rw [hgap]; omega), hgap,
      hmove]

/-! ### Jumps and steps -/

theorem Shortened.size_add_gap {w' : Window} {n : Nat} {x : SeqNum} (h : w.Shortened w' n)
    (ahead : w.next.gap x < 2147483648) (hn : n ≤ w.slots.size + w.next.gap x + 1) :
    w'.slots.size + w'.next.gap x.next + n = w.slots.size + w.next.gap x + 1 := by
  have hx : x.next = w.next + (w.next.gap x + 1) := by rw [← SeqNum.add_next, SeqNum.add_gap]
  rw [h.next, hx, SeqNum.gap_add_add _ (by omega) (by omega), h.size]
  omega

/-- A window that is short enough may be filled up to `x` first. -/
theorem Shortened.addPlaceholders_next {w' : Window} {n : Nat} {x : SeqNum} (h : w.Shortened w' n)
    (ahead : w.next.gap x + 1 < 2147483648) (hn : n ≤ w.slots.size + w.next.gap x + 1)
    (room : w.slots.size + w.next.gap x + 2 ≤ w.capacity + n) (now : Timestamp) :
    (w'.addPlaceholders x.next now).addPlaceholders x.next.next now =
      w'.addPlaceholders x.next.next now := by
  have hgap : w.next.gap x.next = w.next.gap x + 1 := SeqNum.gap_add_right (by omega)
  have hcap := h.capacity
  have hroom := h.size_add_gap (x := x) (by omega) hn
  have hroom' := h.size_add_gap (x := x.next) (by omega) (by omega)
  exact h.tracks.addPlaceholders_addPlaceholders (by omega) (by omega) now

/-- A lead that goes on by one number after it jumped is where it would be after a jump to there. -/
theorem Tracks.advanceLead_advanceLead {x : SeqNum} (h : w.Tracks)
    (ahead : w.next.gap x + 1 < 2147483648) (now : Timestamp) :
    (w.advanceLead x now).advanceLead x.next now = w.advanceLead x.next now := by
  have hpos := Sound.capacity_pos w
  have hgap : w.next.gap x.next = w.next.gap x + 1 := SeqNum.gap_add_right (by omega)
  obtain ⟨s, hs⟩ : ∃ s, s = w.slots.size + w.next.gap x + 1 - w.capacity := ⟨_, rfl⟩
  obtain ⟨u, hu⟩ : ∃ u, u = moveTrail^[s] w := ⟨_, rfl⟩
  have shortened : w.Shortened u s := hu ▸ h.shortened_iterate s
  have hcap := shortened.capacity
  have hroom := shortened.size_add_gap (x := x) (by omega) (by omega)
  have filled := shortened.tracks.filled x.next (by omega) now
  have hnext : (u.addPlaceholders x.next now).next.gap x.next = 0 := by
    rw [filled.next, SeqNum.add_gap, SeqNum.gap_self]
  have hsize := filled.size
  have hcap' := filled.capacity
  rw [h.advanceLead_eq (by omega) now, ← hs, ← hu, filled.tracks.advanceLead_eq (by omega) now, hnext,
    h.advanceLead_eq (by omega) now, hgap]
  by_cases full : w.capacity ≤ w.slots.size + w.next.gap x + 1
  · -- The second move evicts one slot, which may as well leave with the others.
    have hmove : (u.addPlaceholders x.next now).moveTrail = u.moveTrail.addPlaceholders x.next now :=
      (if_neg (by omega)).trans
        (shortened.tracks.evictTrail_addPlaceholders (by omega) (by omega) now)
    rw [show (u.addPlaceholders x.next now).slots.size + 0 + 1 -
        (u.addPlaceholders x.next now).capacity = 1 by omega,
      show w.slots.size + (w.next.gap x + 1) + 1 - w.capacity = s + 1 by omega,
      Function.iterate_succ_apply' moveTrail s, ← hu, Function.iterate_one, hmove]
    exact (shortened.trans shortened.tracks.shortened_moveTrail).addPlaceholders_next ahead (by omega)
      (by omega) now
  · rw [show (u.addPlaceholders x.next now).slots.size + 0 + 1 -
        (u.addPlaceholders x.next now).capacity = 0 by omega,
      show w.slots.size + (w.next.gap x + 1) + 1 - w.capacity = s by omega, ← hu]
    exact shortened.addPlaceholders_next ahead (by omega) (by omega) now

/-- A window whose lead was moved is filled up to there. -/
theorem Tracks.exists_filled {x : SeqNum} (h : w.Tracks) (ahead : w.next.gap x < 2147483648)
    (now : Timestamp) :
    ∃ u, w.Shortened u (w.slots.size + w.next.gap x + 1 - w.capacity) ∧
      u.slots.size + u.next.gap x.next ≤ u.capacity ∧
      w.advanceLead x now = u.addPlaceholders x.next now := by
  have shortened := h.shortened_iterate (w.slots.size + w.next.gap x + 1 - w.capacity)
  have hroom := shortened.size_add_gap ahead (by omega)
  have hcap := shortened.capacity
  exact ⟨_, shortened, by omega, h.advanceLead_eq ahead now⟩

theorem Tracks.advanceLead {x : SeqNum} (h : w.Tracks) (ahead : w.next.gap x < 2147483648)
    (now : Timestamp) : (w.advanceLead x now).Tracks ∧ (w.advanceLead x now).next = x.next := by
  obtain ⟨u, shortened, room, he⟩ := h.exists_filled ahead now
  have filled := shortened.tracks.filled x.next room now
  exact he ▸ ⟨filled.tracks, filled.next.trans (SeqNum.add_gap _ _)⟩

/-- A lead that jumps is a lead that walks. -/
theorem Tracks.walk_eq {k : Nat} (h : w.Tracks) (hk : k < 2147483648) (now : Timestamp) :
    w.walk now (w.next.run (k + 1)) = w.advanceLead (w.next + k) now := by
  induction k with
  | zero =>
    rw [SeqNum.add_zero]
    rfl
  | succ k ih =>
    have hgap : w.next.gap (w.next + k) = k := SeqNum.gap_add _ (by omega)
    calc w.walk now (w.next.run (k + 1 + 1))
      _ = (w.walk now (w.next.run (k + 1))).walk now ((w.next + (k + 1)).run 1) := by
          rw [SeqNum.run_add, walk, List.foldl_append]
          rfl
      _ = (w.advanceLead (w.next + k) now).advanceLead (w.next + k).next now := by
          rw [ih (by omega), SeqNum.add_next]
          rfl
      _ = w.advanceLead (w.next + (k + 1)) now := by
          rw [h.advanceLead_advanceLead (by omega), SeqNum.add_next]

theorem Tracks.walk {k : Nat} (h : w.Tracks) (hk : k ≤ 2147483648) (now : Timestamp) :
    (w.walk now (w.next.run k)).Tracks ∧ (w.walk now (w.next.run k)).next = w.next + k := by
  cases k with
  | zero => exact ⟨h, (SeqNum.add_zero _).symm⟩
  | succ k =>
    have hgap : w.next.gap (w.next + k) = k := SeqNum.gap_add _ (by omega)
    obtain ⟨tracks, hnext⟩ := h.advanceLead (x := w.next + k) (by omega) now
    rw [h.walk_eq hk now]
    exact ⟨tracks, hnext.trans (SeqNum.add_next ..)⟩

/-- A single step appends one placeholder, and the first slot of a full window is evicted for it. -/
theorem Tracks.advanceLead_next (h : w.Tracks) (now : Timestamp) :
    w.advanceLead w.next now = (if w.slots.isFull then w.evictTrail else w).addNext now := by
  have hpos := Sound.capacity_pos w
  have hsize : w.slots.size ≤ w.capacity := w.slots.size_le
  have hfull : w.slots.isFull = true ↔ w.slots.size = w.capacity := decide_eq_true_iff
  have append : ∀ {v : Window}, v.next = w.next → v.slots.size < v.capacity →
      v.addPlaceholders w.next.next now = v.addNext now := by
    intro v hnext room
    have hgap : v.next.gap w.next.next = 1 := hnext ▸ w.next.gap_next_self
    rw [addPlaceholders_eq_iterate _ now (by omega), hgap, Function.iterate_one]
  rw [h.advanceLead_eq (by rw [SeqNum.gap_self]; omega), SeqNum.gap_self]
  by_cases full : w.slots.size = w.capacity
  · obtain ⟨-, hless, hnext, hcap⟩ := places_evictTrail (w := w) (by omega)
    rw [show w.slots.size + 0 + 1 - w.capacity = 1 by omega, Function.iterate_one, moveTrail,
      if_neg (by omega), append hnext (by omega), if_pos (hfull.2 full)]
  · rw [show w.slots.size + 0 + 1 - w.capacity = 0 by omega, Function.iterate_zero_apply,
      append rfl (by omega), if_neg (mt hfull.1 full)]

/-- The window after its lead was moved to `x`: the trail follows if it has to, and what stays in the
window stays as it is. -/
structure Advanced (w w' : Window) (x : SeqNum) : Prop where
  lead : w'.lead = x
  trail : w'.trail =
    if w.trail.Before (x - (w.capacity - 1)) then x - (w.capacity - 1) else w.trail
  slots : ∀ s, w.slots.Contains s → w'.slots.Contains s → w'.slots.get? s = w.slots.get? s

/-- A number that the window held before is none of those that are filled up. -/
theorem Shortened.not_mem_upTo {w' : Window} {n : Nat} {x s : SeqNum} (h : w.Shortened w' n)
    (hs : w.Sound) (ahead : w.next.gap x < 2147483648) (hn : n ≤ w.slots.size + w.next.gap x + 1)
    (before : w.slots.Contains s) : s ∉ w'.next.upTo x.next := by
  have hsize := hs.size_le
  have hlength := h.size
  have hroom := h.size_add_gap ahead hn
  rw [SeqNum.upTo_eq_run (by omega)]
  intro hmem
  obtain ⟨k, hk, rfl⟩ := SeqNum.mem_run.1 hmem
  rw [contains_iff_place, h.next, SeqNum.add_add, place_add _ (by rw [place_next]; omega), place_next]
    at before
  omega

theorem Tracks.advanced {x : SeqNum} (h : w.Tracks) (ahead : w.next.gap x < 2147483648)
    (now : Timestamp) : w.Advanced (w.advanceLead x now) x := by
  obtain ⟨u, shortened, room, he⟩ := h.exists_filled ahead now
  have filled := shortened.tracks.filled x.next room now
  refine ⟨?_, ?_, fun s before after => ?_⟩
  · change (w.advanceLead x now).next.prev = x
    rw [(h.advanceLead ahead now).2, SeqNum.next_prev]
  · rw [he, filled.trail, shortened.trail, ← steps_target h.sound ahead, SeqNum.steps]
    split
    · exact SeqNum.add_gap ..
    · exact SeqNum.add_zero _
  · obtain ⟨slot, found⟩ := SlotRing.exists_get? after
    have hget := get?_addPlaceholders x.next now room s
    have hold := shortened.not_mem_upTo h.sound ahead (by omega) before
    rw [if_neg hold, ← he, found] at hget
    rw [found, shortened.slots hget.symm]

/-- Moving the lead to a number ahead of it, however far, is moving it there step by step: the window
that jumped is in all its parts the one that took each number in turn, and a step takes in one
placeholder, for which a full window gives up the slot at its trail. The lead ends at the number, the
trail is moved on only as far as the capacity demands, and the slots that stay are left alone. -/
theorem advanceLead_eq_walk (tsi : Tsi) (config : ValidConfig) (ops : List Op)
    (live : ((create tsi config).run ops).isGone = false)
    (defined : ((create tsi config).run ops).isDefined) (x : SeqNum)
    (ahead : x.After ((create tsi config).run ops).lead) (now : Timestamp) :
    let w := (create tsi config).run ops
    w.advanceLead x now = w.walk now (w.next.upTo x.next) ∧
      (∀ k ≤ w.next.gap x, let v := w.walk now (w.next.run k)
        v.next = w.next + k ∧
          v.advanceLead v.next now = (if v.slots.isFull then v.evictTrail else v).addNext now) ∧
      w.Advanced (w.advanceLead x now) x := by
  intro w
  have tracks : w.Tracks :=
    ⟨(sound_run (sound_create tsi config) live).1, timed_run tsi config ops, defined⟩
  have hgap := after_lead_iff.1 ahead
  change w.next.gap x < 2147483648 at hgap
  have hnext : w.next.gap x.next = w.next.gap x + 1 := SeqNum.gap_add_right (by omega)
  refine ⟨?_, fun k hk => ?_, tracks.advanced hgap now⟩
  · rw [SeqNum.upTo, SeqNum.steps_eq_gap (by omega), hnext, tracks.walk_eq hgap, SeqNum.add_gap]
  · obtain ⟨walked, there⟩ := tracks.walk (k := k) (by omega) now
    exact ⟨there, walked.advanceLead_next now⟩

/-- Two packets arrived and two are missing, which fills the small window. -/
def filledHistory : List Op := [smallPush 0 none 1, smallPush 3 none 2]

theorem advanceLead_eq_walk_small :
    let w := (create smallTsi smallConfig).run filledHistory
    w.isGone = false ∧ w.isDefined ∧ SeqNum.After 9 w.lead ∧ w.lead = 3 ∧ w.trail = 0 ∧
      w.advanceLead 9 5 = w.walk 5 [4, 5, 6, 7, 8, 9] ∧ w.Advanced (w.advanceLead 9 5) 9 ∧
      (w.advanceLead 9 5).trail = 6 := by
  intro w
  have live : w.isGone = false := by decide +kernel
  have defined : w.isDefined := by decide +kernel
  have ahead : SeqNum.After 9 w.lead := by decide +kernel
  obtain ⟨walked, -, advanced⟩ := advanceLead_eq_walk smallTsi smallConfig filledHistory live defined 9
    ahead 5
  have numbers : w.next.upTo (SeqNum.next 9) = [4, 5, 6, 7, 8, 9] := by decide +kernel
  refine ⟨live, defined, ahead, by decide +kernel, by decide +kernel, ?_, advanced, by decide +kernel⟩
  rw [← numbers]
  exact walked

end Window

end ReliableMulticast
