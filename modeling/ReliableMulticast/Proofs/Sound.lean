import ReliableMulticast.Proofs.Apdu
import ReliableMulticast.Proofs.Frame

/-!
# Sound windows

The rules that a window keeps. Its four numbers stand in order, what lies behind `commitTrail` was
delivered or reported lost and nothing else was, the readable part is settled, and a timer runs only
for a packet that is missing. All numbers are told by their `place`, the steps from the trail; as a
window holds far fewer than half of the sequence numbers, places order what `Before` compares
(`Sound.before_iff`).
-/

namespace ReliableMulticast

/-- The slot is as it must be on its side of `commitTrail`. -/
structure Slot.Fits (slot : Slot) (behind : Prop) : Prop where
  settled : behind → slot.state.delivered ∨ slot.state = .lost
  undelivered : ¬ behind → slot.state.delivered = false
  timer : slot.timer ≠ none → slot.state.repairPending

theorem Slot.Fits.lose {slot : Slot} {behind : Prop} (h : slot.Fits behind) :
    slot.lose.Fits behind where
  settled := fun _ => .inr slot.state_lose
  undelivered := fun _ => by rw [slot.state_lose]; rfl
  timer := fun ht => absurd (Slot.timer_lose h.timer) ht

theorem Slot.Fits.loseWith {slot : Slot} {behind : Prop} (h : slot.Fits behind)
    (first : SeqNum) : (slot.loseWith first).Fits behind := by
  rcases slot.loseWith_eq first with he | he
  · rwa [he]
  · rw [he]
    exact h.lose

/-- A missing packet lies ahead of `commitTrail`. -/
theorem Slot.Fits.not_behind {slot : Slot} {behind : Prop} (h : slot.Fits behind)
    (hp : slot.state.repairPending) : ¬ behind := by
  intro hb
  rcases h.settled hb with hd | hl
  · rw [SlotState.not_delivered_of_repairPending hp] at hd
    cases hd
  · rw [hl] at hp
    cases hp

/-- A slot ahead of `commitTrail` that is missing or just arrived. -/
theorem Slot.Fits.of_ahead {slot : Slot} {behind : Prop} (hb : ¬ behind)
    (hd : slot.state.delivered = false)
    (ht : slot.timer ≠ none → slot.state.repairPending) : slot.Fits behind :=
  ⟨fun h => absurd h hb, fun _ => hd, ht⟩

namespace Window

/-- How many steps a number is ahead of the trail. -/
def place (w : Window) (x : SeqNum) : Nat := w.trail.gap x

/-- The slots of the readable part. -/
def readable (w : Window) : List Slot :=
  w.slots.slice w.commitTrail (w.commitTrail.gap w.commitLead)

/-- The rules that a window keeps. -/
structure Sound (w : Window) : Prop where
  capacity : w.capacity = w.config.1.capacity.toNat
  groupSize : IsGroupSize w.groupSize
  groupSize_le : w.groupSize ≤ w.capacity
  commitTrail_le : w.place w.commitTrail ≤ w.place w.commitLead
  commitLead_le : w.place w.commitLead ≤ w.slots.size
  slots : ∀ {x slot}, w.slots.get? x = some slot → slot.Fits (w.place x < w.place w.commitTrail)
  settled : Settled w.commitTrail w.readable
  /-- A window without a place has no slots and nothing to report. -/
  blank : w.isDefined = false →
    w.slots.size = 0 ∧ w.place w.commitTrail = 0 ∧ w.unreportedLosses = 0

/-! ### Places -/

theorem contains_iff_place {w : Window} {x : SeqNum} :
    w.slots.Contains x ↔ w.place x < w.slots.size :=
  SlotRing.contains_iff_gap_lt

theorem place_lt_of_get? {w : Window} {x : SeqNum} {slot : Slot}
    (h : w.slots.get? x = some slot) : w.place x < w.slots.size :=
  contains_iff_place.1 (SlotRing.isSome_get?_iff.1 (by rw [h]; rfl))

theorem contains_of_get? {w : Window} {x : SeqNum} {slot : Slot}
    (found : w.slots.get? x = some slot) : w.slots.Contains x :=
  contains_iff_place.2 (place_lt_of_get? found)

theorem contains_congr {w w' : Window} {x : SeqNum} (trail : w'.trail = w.trail)
    (size : w'.slots.size = w.slots.size) : w'.slots.Contains x ↔ w.slots.Contains x := by
  rw [contains_iff_place, contains_iff_place, place, place, trail, size]

theorem contains_of_frame_eq {w w' : Window} {x : SeqNum} (h : w'.frame = w.frame) :
    w'.slots.Contains x ↔ w.slots.Contains x :=
  contains_congr (congrArg Frame.trail h) (congrArg Frame.size h)

theorem get?_of_empty {w : Window} (empty : w.slots.size = 0) (x : SeqNum) :
    w.slots.get? x = none := by
  refine SlotRing.get?_eq_none fun hc => ?_
  rw [contains_iff_place, empty] at hc
  exact Nat.not_lt_zero _ hc

@[simp] theorem trail_add_place (w : Window) (x : SeqNum) : w.trail + w.place x = x :=
  SeqNum.add_gap _ _

@[simp] theorem place_trail (w : Window) : w.place w.trail = 0 :=
  SeqNum.gap_self _

@[simp] theorem place_next (w : Window) : w.place w.next = w.slots.size := by
  have := w.slots.size_le_maxRing
  exact SeqNum.gap_add _ (by omega)

theorem place_add (w : Window) {x : SeqNum} {n : Nat} (h : w.place x + n < 4294967296) :
    w.place (x + n) = w.place x + n :=
  SeqNum.gap_add_right h

/-- The steps between two numbers are the difference of their places. -/
theorem gap_eq_place_sub {w : Window} {x y : SeqNum} (h : w.place x ≤ w.place y) :
    x.gap y = w.place y - w.place x :=
  SeqNum.gap_split h

theorem gap_next_of_place {w : Window} {x : SeqNum} (h : w.place x ≤ w.slots.size) :
    x.gap w.next = w.slots.size - w.place x := by
  rw [gap_eq_place_sub (w.place_next ▸ h), place_next]

theorem place_inj {w : Window} {x y : SeqNum} (h : w.place x = w.place y) : x = y := by
  rw [← w.trail_add_place x, h, trail_add_place]

namespace Sound

variable {w : Window}

theorem size_le (h : w.Sound) : w.slots.size ≤ 1073741824 := by
  have hcap : w.slots.capacity = w.config.1.capacity.toNat := h.capacity
  have hmax : w.config.1.capacity.toNat ≤ 1073741824 := w.config.2.capacity_le
  have := w.slots.size_le
  omega

theorem capacity_le (h : w.Sound) : w.capacity ≤ 1073741824 :=
  h.capacity ▸ w.config.2.capacity_le

theorem capacity_pos (w : Window) : 0 < w.capacity := w.slots.capacity_pos

theorem groupSize_pos (h : w.Sound) : 0 < w.groupSize := by
  rw [h.groupSize.1, Nat.one_shiftLeft]
  exact Nat.two_pow_pos _

theorem place_commitTrail_le (h : w.Sound) : w.place w.commitTrail ≤ w.slots.size :=
  Nat.le_trans h.commitTrail_le h.commitLead_le

/-- Numbers up to the one after the lead stand in the order of their places. -/
theorem before_iff (h : w.Sound) {x y : SeqNum} (hx : w.place x ≤ w.slots.size)
    (hy : w.place y ≤ w.slots.size) : x.Before y ↔ w.place x < w.place y := by
  have := h.size_le
  exact SeqNum.before_iff_gap_lt w.trail (by unfold place at *; omega) (by unfold place at *; omega)

/-- The reader is never behind the trail. -/
theorem not_before_trail (h : w.Sound) : ¬ w.commitTrail.Before w.trail := by
  rw [h.before_iff h.place_commitTrail_le (by simp)]
  simp

theorem gap_readable (h : w.Sound) :
    w.commitTrail.gap w.commitLead = w.place w.commitLead - w.place w.commitTrail :=
  gap_eq_place_sub h.commitTrail_le

theorem gap_next (h : w.Sound) :
    w.commitTrail.gap w.next = w.slots.size - w.place w.commitTrail :=
  gap_next_of_place h.place_commitTrail_le

theorem gap_commitLead (h : w.Sound) :
    w.commitLead.gap w.next = w.slots.size - w.place w.commitLead :=
  gap_next_of_place h.commitLead_le

theorem length_readable (h : w.Sound) :
    w.readable.length = w.commitTrail.gap w.commitLead := by
  refine SlotRing.length_slice ?_
  have := h.commitTrail_le
  have := h.commitLead_le
  rw [h.gap_readable]
  change w.place w.commitTrail + _ ≤ _
  omega

theorem isDefined_of_get? (h : w.Sound) {x : SeqNum} {slot : Slot}
    (found : w.slots.get? x = some slot) : w.isDefined := by
  by_contra hundefined
  have empty := (h.blank (Bool.eq_false_iff.2 hundefined)).1
  cases (get?_of_empty empty x).symm.trans found

/-- A slot of the readable part is a whole APDU's data or given up. -/
theorem hasData_or_lost (h : w.Sound) {x : SeqNum} {slot : Slot}
    (hs : w.slots.get? x = some slot) (hx : w.place w.commitTrail ≤ w.place x)
    (hlt : w.place x < w.place w.commitLead) : slot.state.hasData ∨ slot.state = .lost := by
  refine h.settled.hasData_or_lost slot (SlotRing.mem_slice.2
    ⟨w.place x - w.place w.commitTrail, by rw [h.gap_readable]; omega, ?_⟩)
  rw [← gap_eq_place_sub hx, SeqNum.add_gap, hs]

/-- A missing packet lies beyond the readable part. -/
theorem commitLead_le_of_pending (h : w.Sound) {x : SeqNum} {slot : Slot}
    (hs : w.slots.get? x = some slot) (hp : slot.state.repairPending) :
    w.place w.commitLead ≤ w.place x := by
  have ahead : w.place w.commitTrail ≤ w.place x := by
    have := (h.slots hs).not_behind hp
    omega
  by_contra hlt
  rcases h.hasData_or_lost hs ahead (by omega) with hd | hl
  · rw [(SlotState.hasData_iff.1 hd).2] at hp
    cases hp
  · rw [hl] at hp
    cases hp

/-! ### Changing slots in place -/

/-- A window is still sound after its slots changed if each of them fits its place and the readable
part is settled. -/
theorem of_frame_eq (h : w.Sound) {w' : Window} (hf : w'.frame = w.frame)
    (hslots : ∀ {x slot}, w'.slots.get? x = some slot →
      slot.Fits (w.place x < w.place w.commitTrail))
    (hsettled : Settled w.commitTrail
      (w'.slots.slice w.commitTrail (w.commitTrail.gap w.commitLead))) : w'.Sound := by
  have hconfig : w'.config = w.config := congrArg Frame.config hf
  have hcapacity : w'.capacity = w.capacity := congrArg Frame.capacity hf
  have hgroup : w'.groupSize = w.groupSize := congrArg Frame.groupSize hf
  have hsize : w'.slots.size = w.slots.size := congrArg Frame.size hf
  have htrail : w'.trail = w.trail := congrArg Frame.trail hf
  have hct : w'.commitTrail = w.commitTrail := congrArg Frame.commitTrail hf
  have hcl : w'.commitLead = w.commitLead := congrArg Frame.commitLead hf
  have hdef : w'.isDefined = w.isDefined := congrArg Frame.isDefined hf
  have hunrep : w'.unreportedLosses = w.unreportedLosses := congrArg Frame.unreportedLosses hf
  have hplace : w'.place = w.place := by
    funext x
    rw [place, place, htrail]
  refine ⟨?_, ?_, ?_, ?_, ?_, ?_, ?_, ?_⟩
  · rw [hcapacity, hconfig, h.capacity]
  · rw [hgroup]
    exact h.groupSize
  · rw [hgroup, hcapacity]
    exact h.groupSize_le
  · rw [hplace, hct, hcl]
    exact h.commitTrail_le
  · rw [hplace, hcl, hsize]
    exact h.commitLead_le
  · intro x slot hs
    rw [hplace, hct]
    exact hslots hs
  · rw [readable, hct, hcl]
    exact hsettled
  · intro hb
    rw [hdef] at hb
    rw [hplace, hsize, hct, hunrep]
    exact h.blank hb

end Sound

end Window

end ReliableMulticast
