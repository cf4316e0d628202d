import ReliableMulticast.Proofs.Firing

/-!
# How many requests a packet costs

The requests for a missing packet are counted apart: those before its first confirmation and those
after it. Neither kind exceeds its limit, and a slot is given up for want of an answer only when the
limit of its kind is reached. A slot keeps only the sum of both, and keeps it only up to `maxCount`;
what is left for the second kind is told from it rightly all the same (`Slot.Tallied.expire`).
-/

namespace ReliableMulticast

/-- The requests for a number since its slot was made. -/
structure NakTally where
  /-- Those before the first confirmation. -/
  before : Nat
  /-- Those after it. -/
  after : Nat
  isConfirmed : Bool
  deriving DecidableEq

namespace NakTally

/-- The tally of a number that has no slot. -/
def zero : NakTally := ⟨0, 0, false⟩

/-- Counts `n` more requests. -/
def add (t : NakTally) (n : Nat) : NakTally :=
  if t.isConfirmed then { t with after := t.after + n } else { t with before := t.before + n }

/-- Notes a confirmation. -/
def confirm (t : NakTally) (confirms : Bool) : NakTally :=
  { t with isConfirmed := t.isConfirmed || confirms }

/-- The requests are within the limits: unconfirmed ones by the retries and the limit for all of them,
confirmed ones by what is left of that limit or by the least number. -/
structure Within (t : NakTally) (c : WindowConfig) : Prop where
  before : t.before ≤ min (1 + c.maxNcfRetries.toNat) c.maxNaks.toNat
  after : t.after ≤ max (c.maxNaks.toNat - t.before) c.minNaks.toNat

/-- The limit that counts is reached. -/
structure UsedUp (t : NakTally) (c : WindowConfig) : Prop where
  before : t.isConfirmed = false → t.before = min (1 + c.maxNcfRetries.toNat) c.maxNaks.toNat
  after : t.isConfirmed → t.after = max (c.maxNaks.toNat - t.before) c.minNaks.toNat

@[simp] theorem add_zero (t : NakTally) : t.add 0 = t := by
  unfold add
  split <;> rfl

@[simp] theorem confirm_false (t : NakTally) : t.confirm false = t := by
  rw [confirm, Bool.or_false]

end NakTally

/-! ### What a slot knows of its requests -/

/-- What a slot counts agrees with the tally, as far as the timer that it runs needs it. -/
structure Slot.Tallied (slot : Slot) (c : WindowConfig) (t : NakTally) : Prop where
  naks : slot.naks = min (t.before + t.after) maxCount
  within : t.Within c
  backOff : slot.timer = some .backOff → t = .zero ∧ slot.ncfRetries = 0
  waitNcf : slot.timer = some .waitNcf →
    t.isConfirmed = false ∧ t.after = 0 ∧ t.before = slot.ncfRetries + 1
  waitData : slot.timer = some .waitData → t.isConfirmed ∧ slot.dataRetries = t.after

namespace Slot

variable {slot old new : Slot} {c : WindowConfig} {t : NakTally} {now : Timestamp}

theorem IsFresh.tallied (h : slot.IsFresh c now) : slot.Tallied c .zero where
  naks := h.naks
  within := ⟨Nat.zero_le _, Nat.zero_le _⟩
  backOff := fun _ => ⟨rfl, h.ncfRetries⟩
  waitNcf := fun runs => by
    rcases h.timer with ht | ⟨ht, -⟩ <;> cases ht.symm.trans runs
  waitData := fun runs => by
    rcases h.timer with ht | ⟨ht, -⟩ <;> cases ht.symm.trans runs

namespace Tallied

theorem goesOn (h : old.Tallied c t) (h' : old.GoesOn new) : new.Tallied c t where
  naks := h'.naks.trans h.naks
  within := h.within
  backOff := fun runs => h'.ncfRetries ▸ h.backOff (h'.expiry_eq runs).1
  waitNcf := fun runs => h'.ncfRetries ▸ h.waitNcf (h'.expiry_eq runs).1
  waitData := fun runs => h'.dataRetries ▸ h.waitData (h'.expiry_eq runs).1

/-- A slot that sends no more requests. -/
theorem stopped (h : slot.Tallied c t) (naks : new.naks = slot.naks) (stopped : new.timer = none) :
    new.Tallied c t where
  naks := naks.trans h.naks
  within := h.within
  backOff := fun runs => by cases stopped.symm.trans runs
  waitNcf := fun runs => by cases stopped.symm.trans runs
  waitData := fun runs => by cases stopped.symm.trans runs

theorem expireBackOff (h : slot.Tallied c t) (requests : c.maxNaks ≠ 0)
    (runs : slot.timer = some .backOff) (now : Timestamp) :
    (slot.expireBackOff c now).Tallied c (t.add 1) := by
  obtain ⟨rfl, hretries⟩ := h.backOff runs
  have hpos : 0 < c.maxNaks.toNat := Nat.pos_of_ne_zero fun h0 => requests (UInt8.toNat_inj.1 h0)
  have hnaks : slot.naks = 0 := h.naks
  refine ⟨?_, ⟨?_, Nat.zero_le _⟩, nofun, fun _ => ⟨rfl, rfl, ?_⟩, nofun⟩
  · change bump slot.naks = _
    rw [hnaks]
    rfl
  · change 1 ≤ _
    omega
  · change 1 = slot.ncfRetries + 1
    rw [hretries]

theorem expireNcf (h : slot.Tallied c t) (runs : slot.timer = some .waitNcf) (now : Timestamp) :
    (slot.expireNcf c now).1.Tallied c (t.add (slot.expireNcf c now).2.isSome.toNat) ∧
      ((slot.expireNcf c now).2.isNone → t.UsedUp c ∧ (slot.expireNcf c now).1.timer = none) := by
  obtain ⟨hunconfirmed, hafter, hbefore⟩ := h.waitNcf runs
  have hnaks := h.naks
  have hle := h.within.before
  have hmax := c.maxNaks.toNat_lt
  have hretries : bump slot.ncfRetries = t.before := by
    unfold bump maxCount
    omega
  unfold Slot.expireNcf
  simp only [hretries]
  unfold maxCount at hnaks
  split
  next hend =>
    refine ⟨(NakTally.add_zero t).symm ▸ h.stopped rfl rfl, fun _ => ⟨⟨fun _ => ?_, fun hc => ?_⟩, rfl⟩⟩
    · omega
    · cases hunconfirmed.symm.trans hc
  next hgo =>
    have hadd : t.add 1 = { t with before := t.before + 1 } :=
      if_neg (by rw [hunconfirmed]; exact Bool.false_ne_true)
    refine ⟨?_, nofun⟩
    change Tallied _ c (t.add 1)
    rw [hadd]
    refine ⟨?_, ⟨?_, ?_⟩, nofun, fun _ => ⟨hunconfirmed, hafter, rfl⟩, nofun⟩
    · change bump slot.naks = min (t.before + 1 + t.after) maxCount
      unfold bump maxCount
      omega
    · change t.before + 1 ≤ _
      omega
    · change t.after ≤ _
      omega

/-- The requests that are left of a limit are told from the sum of both kinds even where the sum stopped
at `maxCount`: nothing is left then, either way. -/
theorem budget_le_iff {most least before after : Nat} (hmost : most ≤ maxCount) :
    max (most - (min (before + after) maxCount - after)) least ≤ after ↔
      max (most - before) least ≤ after := by
  rcases Nat.le_total (before + after) maxCount with hsum | hsum
  · rw [Nat.min_eq_left hsum, Nat.add_sub_cancel]
  · rw [Nat.min_eq_right hsum, Nat.max_le, Nat.max_le]
    exact and_congr_left fun _ => iff_of_true (by omega) (by omega)

theorem expireData (h : slot.Tallied c t) (runs : slot.timer = some .waitData) (now : Timestamp) :
    (slot.expireData c now).1.Tallied c (t.add (slot.expireData c now).2.isSome.toNat) ∧
      ((slot.expireData c now).2.isNone → t.UsedUp c ∧ (slot.expireData c now).1.timer = none) := by
  obtain ⟨hconfirmed, hretries⟩ := h.waitData runs
  have hnaks := h.naks
  have hle := h.within.after
  have hsame : slot.dataBudget c ≤ t.after ↔
      max (c.maxNaks.toNat - t.before) c.minNaks.toNat ≤ t.after := by
    rw [dataBudget, hretries, hnaks]
    exact budget_le_iff (Nat.le_of_lt_succ c.maxNaks.toNat_lt)
  unfold Slot.expireData
  rw [hretries]
  split
  next hend =>
    refine ⟨(NakTally.add_zero t).symm ▸ h.stopped rfl rfl, fun _ => ⟨⟨fun hu => ?_, fun _ => ?_⟩, rfl⟩⟩
    · cases hconfirmed.symm.trans hu
    · exact Nat.le_antisymm hle (hsame.1 hend)
  next hgo =>
    have hadd : t.add 1 = { t with after := t.after + 1 } := if_pos hconfirmed
    refine ⟨?_, nofun⟩
    change Tallied _ c (t.add 1)
    rw [hadd]
    refine ⟨?_, ⟨h.within.before, Nat.lt_of_not_le (hgo ∘ hsame.2)⟩, nofun, nofun, fun _ => ⟨hconfirmed, rfl⟩⟩
    change bump slot.naks = min (t.before + (t.after + 1)) maxCount
    rw [hnaks]
    unfold bump maxCount
    omega

/-- The end of a timer costs one more request, or the slot is exhausted and the limit reached. -/
theorem expire (h : slot.Tallied c t) (requests : c.maxNaks ≠ 0) {timer : Timer}
    (runs : slot.timer = some timer) (now : Timestamp) :
    (slot.expire c now timer).1.Tallied c (t.add (slot.expire c now timer).2.isSome.toNat) ∧
      ((slot.expire c now timer).2.isNone → t.UsedUp c ∧ (slot.expire c now timer).1.timer = none) := by
  cases timer with
  | backOff => exact ⟨h.expireBackOff requests runs now, nofun⟩
  | waitNcf => exact h.expireNcf runs now
  | waitData => exact h.expireData runs now

/-- A slot that is confirmed has its requests counted from then on. -/
theorem confirm (h : slot.Tallied c t) {timer : Timer} (runs : slot.timer = some timer)
    (now : Timestamp) : (slot.confirm c now).Tallied c (t.confirm true) := by
  have hconfirm : t.confirm true = { t with isConfirmed := true } := by
    rw [NakTally.confirm, Bool.or_true]
  rw [hconfirm]
  unfold Slot.confirm
  simp only
  split
  next hdata =>
    obtain ⟨-, hretries⟩ := h.waitData hdata
    refine ⟨h.naks, ⟨h.within.before, h.within.after⟩, fun hb => ?_, fun hn => ?_,
      fun _ => ⟨rfl, hretries⟩⟩
    · cases hdata.symm.trans hb
    · cases hdata.symm.trans hn
  next hdata =>
    have hafter : t.after = 0 := by
      cases timer with
      | backOff => rw [(h.backOff runs).1]; rfl
      | waitNcf => exact (h.waitNcf runs).2.1
      | waitData => exact absurd runs hdata
    exact ⟨h.naks, ⟨h.within.before, h.within.after⟩, nofun, nofun, fun _ => ⟨rfl, hafter.symm⟩⟩

end Tallied

end Slot

namespace Window

variable {w : Window} {now : Timestamp} {x : SeqNum} {slot : Slot} {t : NakTally} {idle : List SeqNum}

/-- The operation confirms the request for a number: its slot is older than the confirmation and waits
in a queue. -/
def Op.confirms (w : Window) (x : SeqNum) : Op → Bool
  | .confirmNak s sent _ =>
    decide (s = x) && w.slotIs x fun slot => !decide (sent < slot.created) && slot.timer.isSome
  | _ => false

/-- The tally of a number after an operation: the requests that it answers with are counted, and a
confirmation is noted. Without a slot the number starts anew. -/
def nextNakTally (w : Window) (x : SeqNum) (op : Op) (t : NakTally) : NakTally :=
  if (w.step op).1.slots.Contains x then
    (t.add ((w.step op).2.asked.count x)).confirm (op.confirms w x)
  else .zero

/-- The tally of a number after a history that begins with the tally `t`. -/
def nakTallyFrom (w : Window) (x : SeqNum) (t : NakTally) : List Op → NakTally
  | [] => t
  | op :: ops => nakTallyFrom (w.step op).1 x (w.nextNakTally x op t) ops

/-- The requests for a number in the course of a history, since its slot was made. -/
def nakTally (w : Window) (x : SeqNum) (ops : List Op) : NakTally := w.nakTallyFrom x .zero ops

theorem nakTally_concat (w : Window) (x : SeqNum) (ops : List Op) (op : Op) :
    w.nakTally x (ops ++ [op]) = (w.run ops).nextNakTally x op (w.nakTally x ops) := by
  unfold nakTally
  generalize NakTally.zero = t
  induction ops generalizing w t with
  | nil => rfl
  | cons first ops ih => exact ih _ _

/-- The tally of a number agrees with its slot, if it has one. -/
structure Tallies (w : Window) (x : SeqNum) (t : NakTally) : Prop where
  slot : ∀ slot, w.slots.get? x = some slot → slot.Tallied w.config.1 t
  none : ¬ w.slots.Contains x → t = .zero

theorem tallies_of_not_contains (outside : ¬ w.slots.Contains x) : w.Tallies x .zero where
  slot := fun slot hs => absurd (SlotRing.isSome_get?_iff.1 (by rw [hs]; rfl)) outside
  none := fun _ => rfl

/-! ### Sweeps -/

/-- In the course of a sweep a slot agrees with its tally, and once it is exhausted, its limit is
reached and it sends no more. -/
structure Spends (w : Window) (x : SeqNum) (t : NakTally) (ended : List Ended) : Prop where
  slot : ∃ slot, w.slots.get? x = some slot ∧ slot.Tallied w.config.1 t ∧
    (x ∈ Ended.exhausted ended → slot.timer = none)
  usedUp : x ∈ Ended.exhausted ended → t.UsedUp w.config.1

theorem Spends.endDue {ended : List Ended} (h : w.Spends x t ended) (timed : w.Timed idle)
    (now : Timestamp) (timer : Timer) :
    (w.endDue now timer).1.Spends x
      (t.add ((Ended.requesting (w.endDue now timer).2).count x)) (ended ++ (w.endDue now timer).2) := by
  obtain ⟨slot, hs, tallied, hstopped⟩ := h.slot
  have hconfig := (Keeps.of_frame_eq (w.frame_endDue now timer)).config
  have requests : w.config.1.maxNaks ≠ 0 := w.config.2.maxNaks_pos
  rcases timed.endDue_cases now timer hs with
    ⟨runs, -, -, hnew, hcount, hexhausted⟩ | ⟨-, hnew, hcount, hexhausted⟩
  · obtain ⟨tallied', hend⟩ := tallied.expire requests runs now
    have hnot : x ∉ Ended.exhausted ended := fun hm => by cases (hstopped hm).symm.trans runs
    have here : x ∈ Ended.exhausted (ended ++ (w.endDue now timer).2) →
        (slot.expire w.config.1 now timer).2.isNone := by
      rw [Ended.exhausted_append, List.mem_append]
      exact fun hm => hexhausted.1 (hm.resolve_left hnot)
    rw [hcount]
    refine ⟨⟨_, hnew, hconfig ▸ tallied', fun hm => (hend (here hm)).2⟩, fun hm => ?_⟩
    have hnone := here hm
    rw [Option.isNone_iff_eq_none] at hnone
    rw [hnone, hconfig]
    exact (NakTally.add_zero t).symm ▸ (hend (here hm)).1
  · have here : x ∈ Ended.exhausted (ended ++ (w.endDue now timer).2) → x ∈ Ended.exhausted ended := by
      rw [Ended.exhausted_append, List.mem_append]
      exact fun hm => hm.resolve_right hexhausted
    rw [hcount, NakTally.add_zero]
    exact ⟨⟨slot, hnew, hconfig ▸ tallied, hstopped ∘ here⟩, hconfig ▸ h.usedUp ∘ here⟩

theorem spends_endAllDue (hsound : w.Sound) (timed : w.Timed []) (hs : w.slots.get? x = some slot)
    (tallied : slot.Tallied w.config.1 t) (now : Timestamp) :
    (w.endAllDue now).1.Spends x (t.add ((Ended.requesting (w.endAllDue now).2).count x))
      (w.endAllDue now).2 := by
  have start : w.Spends x (t.add 0) [] := by
    rw [NakTally.add_zero]
    exact ⟨⟨slot, hs, tallied, nofun⟩, nofun⟩
  refine endAllDue_induction (P := fun v ended =>
    v.Spends x (t.add ((Ended.requesting ended).count x)) ended) hsound timed now start ?_
  intro v ended timer _ timed h
  have hadd : ∀ m n, (t.add m).add n = t.add (m + n) := by
    intro m n
    unfold NakTally.add
    cases t.isConfirmed <;> simp [Nat.add_assoc]
  rw [Ended.requesting_append, List.count_append, ← hadd]
  exact h.endDue timed now timer

/-- After a sweep slots agree with their tallies, and of those that are exhausted the limit is
reached. -/
theorem Tallies.sweep (h : w.Tallies x t) (hsound : w.Sound) (timed : w.Timed [])
    (live : w.isGone = false) (now : Timestamp) :
    (w.step (.sweep now)).1.Tallies x (w.nextNakTally x (.sweep now) t) ∧
      (x ∈ Ended.exhausted (w.endAllDue now).2 →
        (w.nextNakTally x (.sweep now) t).UsedUp w.config.1) := by
  have hstep : (w.step (.sweep now)).1 = (w.sweepAll now).1 := congrArg Prod.fst (step_sweep live now)
  have hcontains := w.contains_sweepAll now x
  by_cases hx : w.slots.Contains x
  · obtain ⟨slot, hs⟩ := SlotRing.exists_get? hx
    obtain ⟨⟨swept, hswept, tallied, -⟩, usedUp⟩ := spends_endAllDue hsound timed hs (h.slot slot hs) now
    have hconfig := (Keeps.of_frame_eq (w.frame_endAllDue now)).config
    obtain ⟨_, hmoves, -⟩ := moves_sweepAll hsound now
    have hconfig' := hmoves.keeps.config
    have hnext : w.nextNakTally x (.sweep now) t =
        t.add ((Ended.requesting (w.endAllDue now).2).count x) := by
      rw [nextNakTally, hstep, if_pos (hcontains.2 hx), asked_sweep timed hsound live]
      exact NakTally.confirm_false _
    rw [hconfig] at tallied usedUp
    rw [hnext, hstep]
    generalize t.add ((Ended.requesting (w.endAllDue now).2).count x) = t' at tallied usedUp ⊢
    refine ⟨⟨fun new hnew => ?_, fun outside => ?_⟩, usedUp⟩
    · obtain ⟨old, hold, hnew⟩ := get?_sweepAll_cases hsound hnew
      obtain rfl := Option.some.inj (hold.symm.trans hswept)
      rw [hconfig']
      rcases hnew with rfl | rfl
      · exact tallied
      · exact tallied.goesOn (.lose old)
    · exact absurd (hcontains.2 hx) outside
  · rw [nextNakTally, hstep, if_neg fun hc => hx (hcontains.1 hc)]
    exact ⟨tallies_of_not_contains fun hc => hx (hcontains.1 hc), fun hm =>
      absurd (contains_of_exhausted hsound hm) hx⟩

/-! ### All operations -/

/-- A confirmation changes the slot that it confirms and no other. -/
theorem get?_acceptNcf {s : SeqNum} {sent : Timestamp} (hs : w.Sound)
    (found : w.slots.get? x = some slot) :
    (w.acceptNcf s sent now).1.slots.get? x =
      some (if Op.confirms w x (.confirmNak s sent now) then slot.confirm w.config.1 now else slot) := by
  have hconfirms : Op.confirms w x (.confirmNak s sent now) =
      (decide (s = x) && (!decide (sent < slot.created) && slot.timer.isSome)) := by
    rw [Op.confirms, slotIs, found]
    rfl
  rw [hconfirms]
  rcases w.acceptNcf_cases s sent now with
    ⟨he, idle⟩ | ⟨other, timer, rfl, hother, runs, fresh, he⟩ <;> rw [he]
  · rw [found, if_neg]
    intro hall
    simp only [Bool.and_eq_true, Bool.not_eq_true', decide_eq_true_eq, decide_eq_false_iff_not] at hall
    obtain ⟨rfl, hfresh, runs⟩ := hall
    exact hfresh (idle (hs.isDefined_of_get? found) slot found runs)
  · change (w.modify other.sequence (Slot.confirm w.config.1 now)).slots.get? x = _
    rw [get?_modify]
    by_cases hx : x = other.sequence
    · subst hx
      obtain rfl := Option.some.inj (found.symm.trans hother)
      have hsame : { slot.confirm w.config.1 now with sequence := slot.sequence } =
          slot.confirm w.config.1 now := by
        unfold Slot.confirm
        simp only
        split <;> rfl
      rw [if_pos rfl, found, Option.map_some, hsame, decide_eq_true rfl, decide_eq_false fresh, runs]
      rfl
    · rw [if_neg hx, found, decide_eq_false (Ne.symm hx)]
      rfl

theorem Tallies.confirmNak (h : w.Tallies x t) (hs : w.Sound) (live : w.isGone = false)
    (s : SeqNum) (sent now : Timestamp) :
    (w.step (.confirmNak s sent now)).1.Tallies x (w.nextNakTally x (.confirmNak s sent now) t) := by
  have hstep : (w.step (.confirmNak s sent now)).1 = (w.acceptNcf s sent now).1 := by
    simp only [step, Window.confirmNak, whileLive_of_live live]
    rfl
  have hconfig := (moves_acceptNcf hs s sent now).keeps.config
  have hcontains : (w.acceptNcf s sent now).1.slots.Contains x ↔ w.slots.Contains x := by
    rcases w.acceptNcf_cases s sent now with ⟨he, -⟩ | ⟨slot, timer, -, -, -, -, he⟩ <;> rw [he]
    exact SlotRing.contains_modify
  have hasked : (w.step (.confirmNak s sent now)).2.asked = [] := rfl
  rw [nextNakTally, hstep, hasked, List.count_nil, NakTally.add_zero]
  split
  next inside =>
    obtain ⟨slot, found⟩ := SlotRing.exists_get? (hcontains.1 inside)
    have tallied := h.slot slot found
    refine ⟨fun new hnew => ?_, fun outside => absurd inside outside⟩
    obtain rfl := Option.some.inj ((get?_acceptNcf hs found).symm.trans hnew)
    rw [hconfig]
    split
    next hconfirms =>
      have runs : slot.timer.isSome := by
        have hslot := (Bool.and_eq_true_iff.1 hconfirms).2
        rw [slotIs, found] at hslot
        exact (Bool.and_eq_true_iff.1 hslot).2
      obtain ⟨timer, runs⟩ := Option.isSome_iff_exists.1 runs
      rw [hconfirms]
      exact tallied.confirm runs now
    next hconfirms =>
      rw [Bool.eq_false_iff.2 hconfirms, NakTally.confirm_false]
      exact tallied
  next outside => exact tallies_of_not_contains outside

/-- Where timers are spared, nothing is requested or confirmed. -/
theorem Tallies.spare (h : w.Tallies x t) (hs : w.Sound) {op : Op} (part : op.isPart)
    (spares : op.sparesTimers) (config : (w.step op).1.config = w.config) :
    (w.step op).1.Tallies x (w.nextNakTally x op t) := by
  have hquiet : (w.step op).2.asked = [] ∧ op.confirms w x = false := by
    cases op with
    | confirmNak | sweep => cases spares
    | _ => exact ⟨rfl, rfl⟩
  rw [nextNakTally, hquiet.1, hquiet.2, List.count_nil, NakTally.add_zero, NakTally.confirm_false]
  split
  next inside =>
    have grows : w.Grows (w.step op).1 (op.time?.getD 0) :=
      grows_step hs part spares fun time htime => by rw [Option.mem_def.1 htime, Option.getD_some]
    refine ⟨fun new hnew => ?_, fun outside => absurd inside outside⟩
    rw [config]
    rcases grows.slots hnew with ⟨old, hold, hgoes⟩ | ⟨outside, hfresh⟩
    · exact (h.slot old hold).goesOn hgoes
    · rw [h.none outside]
      exact hfresh.tallied
  next outside => exact tallies_of_not_contains outside

/-! ### Histories -/

theorem tallies_run (tsi : Tsi) (config : ValidConfig) (x : SeqNum) {ops : List Op}
    (hparts : ∀ op ∈ ops, op.isPart) :
    ((create tsi config).run ops).Tallies x ((create tsi config).nakTally x ops) := by
  have absent : ∀ {w : Window}, w.slots.get? x = none → ¬ w.slots.Contains x := by
    intro w hnone hc
    rw [← SlotRing.isSome_get?_iff, hnone] at hc
    cases hc
  induction ops using List.reverseRecOn with
  | nil => exact tallies_of_not_contains (absent (get?_create tsi config x))
  | append_singleton ops op ih =>
    have before := ih fun y hy => hparts y (List.mem_append_left _ hy)
    have part := hparts op (List.mem_append_right ops (List.mem_singleton_self op))
    rw [nakTally_concat, run_concat]
    cases hgone : ((create tsi config).run (ops ++ [op])).isGone with
    | true =>
      have outside := absent (get?_of_gone tsi config hgone x)
      rw [run_concat] at outside
      rw [nextNakTally, if_neg outside]
      exact tallies_of_not_contains outside
    | false =>
      have live := isGone_run_of_append hgone
      rw [run_concat] at hgone
      have hs := (sound_run (sound_create tsi config) live).1
      have timed := timed_run tsi config ops
      obtain ⟨_, hmoves, -⟩ := step_spec hs live part hgone
      cases hop : op.sparesTimers with
      | true => exact before.spare hs part hop hmoves.keeps.config
      | false =>
        cases op with
        | confirmNak s sent now => exact before.confirmNak hs live s sent now
        | sweep now => exact (before.sweep hs timed live now).1
        | _ => cases hop

/-- The requests for a packet stay within their limits, and the slot counts them as far as it can. A
sweep gives a slot up for want of an answer only when the limit that counts is reached. -/
theorem naks_within_budget (tsi : Tsi) (config : ValidConfig) (ops : List Op) (x : SeqNum) :
    let c := config.1
    let w := (create tsi config).run ops
    let t := (create tsi config).nakTally x (parts ops)
    (∀ slot, w.slots.get? x = some slot →
      t.before ≤ min (1 + c.maxNcfRetries.toNat) c.maxNaks.toNat ∧
        t.after ≤ max (c.maxNaks.toNat - t.before) c.minNaks.toNat ∧
        slot.naks = min 255 (t.before + t.after)) ∧
      ∀ now, w.isGone = false → x ∈ Ended.exhausted (w.endAllDue now).2 →
        let t := (create tsi config).nakTally x (parts (ops ++ [.sweep now]))
        (t.isConfirmed = false → t.before = min (1 + c.maxNcfRetries.toNat) c.maxNaks.toNat) ∧
          (t.isConfirmed → t.after = max (c.maxNaks.toNat - t.before) c.minNaks.toNat) := by
  intro c w t
  have tallies : ((create tsi config).run (parts ops)).Tallies x t :=
    tallies_run tsi config x isPart_of_mem_parts
  rw [run_parts] at tallies
  refine ⟨fun slot found => ?_, fun now live exhausted => ?_⟩
  · have live : w.isGone = false := Bool.eq_false_iff.2 fun gone => by
      cases (get?_of_gone tsi config gone x).symm.trans found
    have hconfig : w.config = config := (sound_run (sound_create tsi config) live).2.config
    obtain ⟨naks, within, -, -, -⟩ := tallies.slot slot found
    rw [hconfig] at within
    exact ⟨within.before, within.after, naks.trans (Nat.min_comm ..)⟩
  · obtain ⟨hs, hkeeps⟩ := sound_run (sound_create tsi config) live
    have usedUp := (tallies.sweep hs (timed_run tsi config ops) live now).2 exhausted
    have hnext : (create tsi config).nakTally x (parts (ops ++ [.sweep now])) =
        w.nextNakTally x (.sweep now) t := by
      rw [parts_append, show parts [.sweep now] = [.sweep now] from rfl, nakTally_concat, run_parts]
    rw [hkeeps.config] at usedUp
    rw [hnext]
    exact ⟨usedUp.before, usedUp.after⟩

/-- The packet between two others is asked for as often as it may be without a confirmation. -/
def unansweredHistory : List Op := [smallPush 0 none 1, smallPush 2 none 2, .sweep 0, .sweep 0]

theorem naks_within_budget_small :
    let w := (create smallTsi smallConfig).run unansweredHistory
    let t := (create smallTsi smallConfig).nakTally 1 (parts unansweredHistory)
    let t' := (create smallTsi smallConfig).nakTally 1 (parts (unansweredHistory ++ [.sweep 0]))
    (∃ slot, w.slots.get? 1 = some slot ∧ t.before = 3 ∧ t.before ≤ min (1 + 2) 3 ∧
      slot.naks = min 255 (t.before + t.after)) ∧
      w.isGone = false ∧ (1 : SeqNum) ∈ Ended.exhausted (w.endAllDue 0).2 ∧
        t'.isConfirmed = false ∧ t'.before = min (1 + 2) 3 := by
  intro w t t'
  obtain ⟨within, exhausts⟩ := naks_within_budget smallTsi smallConfig unansweredHistory 1
  have live : w.isGone = false := by decide +kernel
  have exhausted : (1 : SeqNum) ∈ Ended.exhausted (w.endAllDue 0).2 := by decide +kernel
  have unconfirmed : t'.isConfirmed = false := by decide +kernel
  have inside : (w.slots.get? 1).isSome := by decide +kernel
  obtain ⟨slot, found⟩ := Option.isSome_iff_exists.1 inside
  exact ⟨⟨slot, found, by decide +kernel, (within slot found).1, (within slot found).2.2⟩, live,
    exhausted, unconfirmed, (exhausts 0 live exhausted).1 unconfirmed⟩

end Window

end ReliableMulticast
