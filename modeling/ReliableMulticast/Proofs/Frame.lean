import ReliableMulticast.Proofs.Stretch
import ReliableMulticast.Window.Delivery
import ReliableMulticast.Window.Sweep

/-!
# What changes of slots leave alone

Most of what a window does to its slots keeps them where they are. `frame` collects what such a
change leaves alone, and each function that only changes slots has one lemma that says so and one
that tells its effect on every slot (`get?_giveUpSlot`, `get?_loseApdu_of_some`,
`get?_commitSlots`). Giving slots up also counts losses, and counts nothing else
(`counters_loseApdu`).
-/

namespace ReliableMulticast

/-- A window without the contents of its slots, its queues and its counters. -/
structure Frame where
  tsi : Tsi
  config : ValidConfig
  groupSize : Nat
  isDefined : Bool
  isGone : Bool
  commitTrail : SeqNum
  commitLead : SeqNum
  unreportedLosses : Nat
  fault : Option SlotRing.Refusal
  trail : SeqNum
  size : Nat
  capacity : Nat

/-- The slot given up, unless it was given up before. -/
def Slot.lose (slot : Slot) : Slot := if slot.state = .lost then slot else slot.giveUp

/-- The slot given up if it belongs to the APDU that starts at `first` or is still missing. -/
def Slot.loseWith (first : SeqNum) (slot : Slot) : Slot :=
  if slot.isFragmentOf first || slot.state.repairPending then slot.lose else slot

namespace Slot

@[simp] theorem state_lose (slot : Slot) : slot.lose.state = .lost := by
  unfold lose
  split
  · assumption
  · rfl

@[simp] theorem fragment_lose (slot : Slot) : slot.lose.fragment = slot.fragment := by
  unfold lose
  split <;> rfl

theorem timer_lose {slot : Slot} (h : slot.timer ≠ none → slot.state.repairPending) :
    slot.lose.timer = none := by
  unfold lose
  split
  next hs =>
    by_contra ht
    have := h ht
    rw [hs] at this
    cases this
  · rfl

@[simp] theorem lose_lose (slot : Slot) : slot.lose.lose = slot.lose := if_pos slot.state_lose

theorem loseWith_eq (first : SeqNum) (slot : Slot) :
    slot.loseWith first = slot ∨ slot.loseWith first = slot.lose := by
  unfold loseWith
  split
  · exact .inr rfl
  · exact .inl rfl

theorem loseWith_loseWith (first : SeqNum) (slot : Slot) :
    (slot.loseWith first).loseWith first = slot.loseWith first := by
  unfold loseWith
  split
  · rw [lose_lose, ite_self]
  · rfl

theorem retain_cases (slot : Slot) :
    slot.retain = slot ∨ slot.state = .committed ∧ slot.retain = { slot with state := .retained } := by
  unfold retain
  split
  next hc => exact .inr ⟨hc, rfl⟩
  · exact .inl rfl

theorem dropPayload_cases (slot : Slot) :
    slot.dropPayload = slot ∨
      slot.state = .committed ∧ slot.dropPayload = { slot with payload := none } := by
  unfold dropPayload
  split
  next hc => exact .inr ⟨hc, rfl⟩
  · exact .inl rfl

@[simp] theorem sequence_retain (slot : Slot) : slot.retain.sequence = slot.sequence := by
  rcases slot.retain_cases with h | ⟨-, h⟩ <;> rw [h]

@[simp] theorem fragment_retain (slot : Slot) : slot.retain.fragment = slot.fragment := by
  rcases slot.retain_cases with h | ⟨-, h⟩ <;> rw [h]

@[simp] theorem parity_retain (slot : Slot) : slot.retain.parity = slot.parity := by
  rcases slot.retain_cases with h | ⟨-, h⟩ <;> rw [h]

@[simp] theorem timer_retain (slot : Slot) : slot.retain.timer = slot.timer := by
  rcases slot.retain_cases with h | ⟨-, h⟩ <;> rw [h]

theorem state_of_state_retain {slot : Slot} {state : SlotState} (h : slot.retain.state = state)
    (other : state ≠ .retained) : slot.state = state := by
  rcases slot.retain_cases with he | ⟨-, he⟩ <;> rw [he] at h
  · exact h
  · exact absurd h.symm other

@[simp] theorem sequence_dropPayload (slot : Slot) : slot.dropPayload.sequence = slot.sequence := by
  rcases slot.dropPayload_cases with h | ⟨-, h⟩ <;> rw [h]

@[simp] theorem fragment_dropPayload (slot : Slot) : slot.dropPayload.fragment = slot.fragment := by
  rcases slot.dropPayload_cases with h | ⟨-, h⟩ <;> rw [h]

@[simp] theorem parity_dropPayload (slot : Slot) : slot.dropPayload.parity = slot.parity := by
  rcases slot.dropPayload_cases with h | ⟨-, h⟩ <;> rw [h]

@[simp] theorem timer_dropPayload (slot : Slot) : slot.dropPayload.timer = slot.timer := by
  rcases slot.dropPayload_cases with h | ⟨-, h⟩ <;> rw [h]

@[simp] theorem state_dropPayload (slot : Slot) : slot.dropPayload.state = slot.state := by
  rcases slot.dropPayload_cases with h | ⟨-, h⟩ <;> rw [h]

end Slot

namespace Window

def frame (w : Window) : Frame where
  tsi := w.tsi
  config := w.config
  groupSize := w.groupSize
  isDefined := w.isDefined
  isGone := w.isGone
  commitTrail := w.commitTrail
  commitLead := w.commitLead
  unreportedLosses := w.unreportedLosses
  fault := w.fault
  trail := w.trail
  size := w.slots.size
  capacity := w.capacity

/-! ### Changing one slot -/

@[simp] theorem frame_modify (w : Window) (s : SeqNum) (change : Slot → Slot) :
    (w.modify s change).frame = w.frame := by
  simp only [frame, modify, trail, capacity, SlotRing.trail_modify, SlotRing.size_modify,
    SlotRing.capacity_modify]

theorem get?_modify (w : Window) (s x : SeqNum) (change : Slot → Slot) :
    (w.modify s change).slots.get? x =
      if x = s then (w.slots.get? x).map fun slot => { change slot with sequence := slot.sequence }
      else w.slots.get? x :=
  SlotRing.get?_modify ..

/-- Folding a change of one slot over numbers leaves the frame alone if each change does. -/
theorem frame_foldl {change : Window → SeqNum → Window} (h : ∀ w s, (change w s).frame = w.frame)
    (numbers : List SeqNum) (w : Window) : (numbers.foldl change w).frame = w.frame := by
  induction numbers generalizing w with
  | nil => rfl
  | cons s numbers ih => rw [List.foldl_cons, ih, h]

/-- Folding a change of one slot over numbers changes the slots of these numbers and no other, if
doing the change twice is doing it once. -/
theorem get?_foldl {change : Window → SeqNum → Window} {f : Slot → Slot}
    (h : ∀ w s x, (change w s).slots.get? x =
      if x = s then (w.slots.get? x).map f else w.slots.get? x)
    (hf : ∀ slot, f (f slot) = f slot) (numbers : List SeqNum) (w : Window) (x : SeqNum) :
    (numbers.foldl change w).slots.get? x =
      if x ∈ numbers then (w.slots.get? x).map f else w.slots.get? x := by
  induction numbers generalizing w with
  | nil => rw [List.foldl_nil, if_neg List.not_mem_nil]
  | cons s numbers ih =>
    rw [List.foldl_cons, ih, h]
    have twice : ((w.slots.get? x).map f).map f = (w.slots.get? x).map f := by
      rw [Option.map_map]
      exact congrFun (congrArg Option.map (funext hf)) _
    by_cases hs : x = s
    · rw [if_pos hs, if_pos (List.mem_cons.2 (.inl hs)), twice, ite_self]
    · rw [if_neg hs]
      by_cases hx : x ∈ numbers
      · rw [if_pos hx, if_pos (List.mem_cons_of_mem s hx)]
      · rw [if_neg hx, if_neg fun hm => (List.mem_cons.1 hm).elim hs hx]

/-! ### Giving up -/

@[simp] theorem frame_giveUpSlot (w : Window) (s : SeqNum) : (w.giveUpSlot s).frame = w.frame := by
  unfold giveUpSlot
  split
  · rfl
  · split
    · rfl
    · exact frame_modify w s Slot.giveUp

theorem get?_giveUpSlot (w : Window) (s x : SeqNum) :
    (w.giveUpSlot s).slots.get? x =
      if x = s then (w.slots.get? x).map Slot.lose else w.slots.get? x := by
  unfold giveUpSlot
  split
  next hs =>
    by_cases hx : x = s
    · rw [if_pos hx, hx, hs]
      rfl
    · rw [if_neg hx]
  next slot hs =>
    split
    next hlost =>
      by_cases hx : x = s
      · rw [if_pos hx, hx, hs, Option.map_some, Slot.lose, if_pos hlost]
      · rw [if_neg hx]
    next hlost =>
      rw [show ∀ q c, ({ w with slots := w.slots.modify s Slot.giveUp, queues := q, counters := c } :
        Window).slots.get? x = (w.modify s Slot.giveUp).slots.get? x from fun _ _ => rfl,
        get?_modify]
      by_cases hx : x = s
      · rw [if_pos hx, if_pos hx, hx, hs, Option.map_some, Option.map_some, Slot.lose,
          if_neg hlost]
        rfl
      · rw [if_neg hx, if_neg hx]

@[simp] theorem frame_giveUpMember (first : SeqNum) (w : Window) (s : SeqNum) :
    (giveUpMember first w s).frame = w.frame := by
  unfold giveUpMember
  split
  · exact frame_giveUpSlot w s
  · rfl

theorem get?_giveUpMember (first : SeqNum) (w : Window) (s x : SeqNum) :
    (giveUpMember first w s).slots.get? x =
      if x = s then (w.slots.get? x).map (Slot.loseWith first) else w.slots.get? x := by
  unfold giveUpMember
  split
  next h =>
    rw [get?_giveUpSlot]
    by_cases hx : x = s
    · rw [if_pos hx, if_pos hx, hx]
      cases hs : w.slots.get? s with
      | none => rfl
      | some slot =>
        rw [slotIs, hs, Option.any_some] at h
        rw [Option.map_some, Option.map_some, Slot.loseWith, if_pos h]
    · rw [if_neg hx, if_neg hx]
  next h =>
    by_cases hx : x = s
    · rw [if_pos hx, hx]
      cases hs : w.slots.get? s with
      | none => rfl
      | some slot =>
        rw [slotIs, hs, Option.any_some] at h
        rw [Option.map_some, Slot.loseWith, if_neg h]
    · rw [if_neg hx]

/-- Where a loss in the APDU that starts at `first` begins to spread. -/
def spreadStart (w : Window) (first : SeqNum) : SeqNum :=
  if first.Before w.commitTrail then w.commitTrail else first

/-- Where the loss of slot `s` in the APDU that starts at `first` ends to spread. -/
def spreadEnd (w : Window) (first s : SeqNum) : SeqNum :=
  (w.giveUpSlot s).lastFragment first s (w.spreadStart first)

/-- The numbers over which the loss of slot `s` spreads if its packet is a fragment of the APDU that
starts at `first`. -/
def spread (w : Window) (first s : SeqNum) : List SeqNum :=
  (w.spreadStart first).upTo (w.spreadEnd first s).next

theorem loseApdu_of_none {w : Window} {s : SeqNum}
    (h : (w.slots.get? s).bind Slot.fragment = none) : w.loseApdu s = w.giveUpSlot s := by
  unfold loseApdu
  rw [h]

theorem loseApdu_of_some {w : Window} {s : SeqNum} {f : Fragment}
    (h : (w.slots.get? s).bind Slot.fragment = some f) :
    w.loseApdu s =
      (w.spread f.apduFirst s).foldl (giveUpMember f.apduFirst) (w.giveUpSlot s) := by
  unfold loseApdu
  rw [h]
  rfl

@[simp] theorem frame_loseApdu (w : Window) (s : SeqNum) : (w.loseApdu s).frame = w.frame := by
  cases h : (w.slots.get? s).bind Slot.fragment with
  | none => rw [loseApdu_of_none h, frame_giveUpSlot]
  | some f =>
    rw [loseApdu_of_some h, frame_foldl (frame_giveUpMember f.apduFirst), frame_giveUpSlot]

theorem addLosses_addLosses (c : Counters) (m n : Nat) :
    (c.addLosses m).addLosses n = c.addLosses (m + n) := by
  simp [Counters.addLosses, Nat.add_assoc]

/-- Giving up a slot counts losses and nothing else. -/
theorem counters_giveUpSlot (w : Window) (s : SeqNum) :
    ∃ n, (w.giveUpSlot s).counters = w.counters.addLosses n := by
  unfold giveUpSlot
  split
  · exact ⟨0, rfl⟩
  · split
    · exact ⟨0, rfl⟩
    · exact ⟨1, rfl⟩

theorem counters_giveUpMembers (first : SeqNum) (numbers : List SeqNum) (w : Window) :
    ∃ n, (numbers.foldl (giveUpMember first) w).counters = w.counters.addLosses n := by
  induction numbers generalizing w with
  | nil => exact ⟨0, rfl⟩
  | cons s numbers ih =>
    obtain ⟨n, hn⟩ := ih (giveUpMember first w s)
    have here : ∃ m, (giveUpMember first w s).counters = w.counters.addLosses m := by
      unfold giveUpMember
      split
      · exact w.counters_giveUpSlot s
      · exact ⟨0, rfl⟩
    obtain ⟨m, hm⟩ := here
    exact ⟨m + n, by rw [List.foldl_cons, hn, hm, addLosses_addLosses]⟩

theorem counters_loseApdu (w : Window) (s : SeqNum) :
    ∃ n, (w.loseApdu s).counters = w.counters.addLosses n := by
  obtain ⟨m, hm⟩ := w.counters_giveUpSlot s
  cases h : (w.slots.get? s).bind Slot.fragment with
  | none => exact ⟨m, by rw [loseApdu_of_none h, hm]⟩
  | some f =>
    obtain ⟨n, hn⟩ := counters_giveUpMembers f.apduFirst (w.spread f.apduFirst s) (w.giveUpSlot s)
    exact ⟨m + n, by rw [loseApdu_of_some h, hn, hm, addLosses_addLosses]⟩

/-- What each slot becomes when slot `s` is given up as a fragment of the APDU at `first`. -/
theorem get?_loseApdu_of_some {w : Window} {s : SeqNum} {f : Fragment}
    (h : (w.slots.get? s).bind Slot.fragment = some f) (x : SeqNum) :
    (w.loseApdu s).slots.get? x =
      if x ∈ w.spread f.apduFirst s then
        ((w.giveUpSlot s).slots.get? x).map (Slot.loseWith f.apduFirst)
      else (w.giveUpSlot s).slots.get? x := by
  rw [loseApdu_of_some h]
  exact get?_foldl (get?_giveUpMember f.apduFirst) (Slot.loseWith_loseWith f.apduFirst) _ _ x

/-- A slot that is lost with its APDU is lost. -/
theorem get?_loseApdu_self {w : Window} {s : SeqNum} {slot : Slot}
    (found : w.slots.get? s = some slot) :
    ∃ new, (w.loseApdu s).slots.get? s = some new ∧ new.state = .lost := by
  have hlost : (w.giveUpSlot s).slots.get? s = some slot.lose := by
    rw [get?_giveUpSlot, if_pos rfl, found]
    rfl
  cases hf : (w.slots.get? s).bind Slot.fragment with
  | none =>
    rw [loseApdu_of_none hf]
    exact ⟨_, hlost, slot.state_lose⟩
  | some f =>
    rw [get?_loseApdu_of_some hf, hlost]
    split
    · refine ⟨_, rfl, ?_⟩
      rcases slot.lose.loseWith_eq f.apduFirst with he | he <;> rw [he] <;> exact Slot.state_lose _
    · exact ⟨_, rfl, slot.state_lose⟩

/-! ### Delivering and freeing -/

@[simp] theorem frame_commitSlots (w : Window) (numbers : List SeqNum) :
    (w.commitSlots numbers).frame = w.frame :=
  frame_foldl (fun w s => frame_modify w s Slot.commit) numbers w

theorem get?_commitSlots (w : Window) (numbers : List SeqNum) (x : SeqNum) :
    (w.commitSlots numbers).slots.get? x =
      if x ∈ numbers then (w.slots.get? x).map Slot.commit else w.slots.get? x :=
  get?_foldl (fun w s x => get?_modify w s x Slot.commit) (fun _ => rfl) numbers w x

theorem queues_commitSlots (w : Window) (numbers : List SeqNum) :
    (w.commitSlots numbers).queues = w.queues := by
  induction numbers generalizing w with
  | nil => rfl
  | cons s numbers ih => exact ih (w.modify s Slot.commit)

@[simp] theorem frame_deliver (w : Window) (count : Nat) :
    (w.deliver count).1.frame = { w.frame with commitTrail := w.commitTrail + count } := by
  rw [← frame_commitSlots w (w.commitTrail.run count)]
  rfl

theorem get?_deliver (w : Window) (count : Nat) (x : SeqNum) :
    (w.deliver count).1.slots.get? x =
      if x ∈ w.commitTrail.run count then (w.slots.get? x).map Slot.commit
      else w.slots.get? x :=
  get?_commitSlots w (w.commitTrail.run count) x

end Window

end ReliableMulticast
