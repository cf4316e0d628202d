import ReliableMulticast.Proofs.Settling

/-!
# Reading and reclaiming

A read takes APDUs and losses off the front one by one. Its notes tell the messages and the losses
that it answers with, in their order, and every message was held as a whole APDU when the read began
(`HoldsMessage`): what a read delivers first does not touch what it delivers later. What a read takes
and what reclaiming frees is told once, piece by piece (`Draws`, `Releases`), and inducted on from there.
-/

namespace ReliableMulticast

/-- The data of the slots, one after the other. -/
def joinSlots (slots : List Slot) : ByteArray :=
  slots.foldl (fun bytes slot => bytes ++ slot.payload.getD .empty) .empty

namespace Window

variable {w : Window} {room length : Nat}

/-- The message is a whole APDU that the window holds and did not deliver. -/
def HoldsMessage (w : Window) (m : Message) : Prop :=
  ∃ apdu : List Slot, apdu.length = m.packets ∧ WholeApdu m.first apdu ∧
    (∀ (k : Nat) (slot : Slot), apdu[k]? = some slot →
      w.slots.get? (m.first + k) = some slot ∧ slot.state = .haveData) ∧
    m.payload = joinSlots apdu

theorem HoldsMessage.of_slots {w' : Window} {m : Message} (h : w'.HoldsMessage m)
    (hslots : ∀ x slot, w'.slots.get? x = some slot → slot.state = .haveData →
      w.slots.get? x = some slot) : w.HoldsMessage m := by
  obtain ⟨apdu, hlength, whole, hheld, hpayload⟩ := h
  refine ⟨apdu, hlength, whole, fun k slot hk => ?_, hpayload⟩
  obtain ⟨hs, hd⟩ := hheld k slot hk
  exact ⟨hslots _ slot hs hd, hd⟩

theorem joinPayloads_run (w : Window) (s : SeqNum) (n : Nat) :
    w.joinPayloads (s.run n) = joinSlots (w.slots.slice s n) := by
  rw [joinPayloads, joinSlots, SlotRing.slice, List.foldl_filterMap]
  congr 1
  funext bytes x
  cases w.slots.get? x with
  | none => exact ByteArray.append_empty
  | some slot => rfl

/-! ### Taking messages -/

/-- The front of a readable part that is not given up is delivered as it is held. -/
theorem holdsMessage_deliver (h : w.Sound) {slot : Slot} {count : Nat}
    (unread : w.commitTrail ≠ w.commitLead) (found : w.slots.get? w.commitTrail = some slot)
    (held : slot.state ≠ .lost) (whole : w.apduCount? w.commitTrail slot = some count) :
    w.HoldsMessage (w.deliver count).2 := by
  obtain ⟨hinside, hlength, hapdu, -⟩ := h.front_slice unread found held whole
  have hle := h.commitTrail_le
  have hcl := h.commitLead_le
  have hgap := h.gap_readable
  refine ⟨w.slots.slice w.commitTrail count, hlength, hapdu, fun k slot hk => ?_,
    w.joinPayloads_run w.commitTrail count⟩
  have hlt : k < count := hlength ▸ (List.getElem?_eq_some_iff.1 hk).1
  have hs : w.slots.get? (w.commitTrail + k) = some slot := by
    rwa [SlotRing.getElem?_slice (by change w.place w.commitTrail + _ ≤ _; omega) hlt] at hk
  have hplace := h.place_commitTrail_add (k := k) (by omega)
  refine ⟨hs, SlotState.eq_haveData (hapdu.hasData slot (List.mem_of_getElem? hk)) ?_⟩
  exact (h.slots hs).undelivered (by omega)

/-- The notes of reading: so many losses told and these messages, nothing taken in, nothing given up
and nothing gone. -/
structure Reads (notes : List Note) (messages : List Message) (lost : Nat) : Prop where
  messages : Note.messages notes = messages
  told : Note.told notes = lost
  packets : Note.packets notes = []
  parities : Note.parities notes = []
  refusals : Note.refusals notes = 0
  givenUp : Note.givenUp notes = []
  regroups : Note.regroups notes = 0
  drops : Note.drops notes = 0
  frees : Note.frees notes = []

theorem Reads.passed {notes : List Note} {messages : List Message} {lost : Nat}
    (h : Reads notes messages lost) : Reads ([.passed] ++ notes) messages (lost + 1) where
  messages := h.messages
  told := by
    rw [Note.told_append, h.told]
    exact Nat.add_comm 1 lost
  packets := h.packets
  parities := h.parities
  refusals := by
    rw [Note.refusals_append, h.refusals]
    rfl
  givenUp := h.givenUp
  regroups := by
    rw [Note.regroups_append, h.regroups]
    rfl
  drops := by
    rw [Note.drops_append, h.drops]
    rfl
  frees := h.frees

theorem Reads.delivered {notes : List Note} {messages : List Message} {lost : Nat}
    (h : Reads notes messages lost) (m : Message) :
    Reads ([.delivered m] ++ notes) (m :: messages) lost where
  messages := by
    rw [Note.messages_append, h.messages]
    rfl
  told := by
    rw [Note.told_append, h.told]
    exact Nat.zero_add lost
  packets := h.packets
  parities := h.parities
  refusals := by
    rw [Note.refusals_append, h.refusals]
    rfl
  givenUp := h.givenUp
  regroups := by
    rw [Note.regroups_append, h.regroups]
    rfl
  drops := by
    rw [Note.drops_append, h.drops]
    rfl
  frees := h.frees

theorem Reads.reported {notes : List Note} {messages : List Message} {lost : Nat}
    (h : Reads notes messages lost) (n : Nat) :
    Reads ([.reported n] ++ notes) messages (n + lost) where
  messages := h.messages
  told := by
    rw [Note.told_append, h.told]
    rfl
  packets := h.packets
  parities := h.parities
  refusals := by
    rw [Note.refusals_append, h.refusals]
    rfl
  givenUp := h.givenUp
  regroups := by
    rw [Note.regroups_append, h.regroups]
    rfl
  drops := by
    rw [Note.drops_append, h.drops]
    rfl
  frees := h.frees

theorem takeReady_of_read (read : w.commitTrail = w.commitLead) :
    takeReady room length w = (w, .nothing .ok) := by
  cases length with
  | zero => rfl
  | succ length => rw [takeReady, if_pos (.inl read)]

theorem takeReady_of_full (length : Nat) : takeReady 0 length w = (w, .nothing .ok) := by
  cases length with
  | zero => rfl
  | succ length => rw [takeReady, if_pos (.inr rfl)]

theorem takeReady_of_lost {slot : Slot} (unread : w.commitTrail ≠ w.commitLead)
    (found : w.slots.get? w.commitTrail = some slot) (lost : slot.state = .lost) :
    takeReady (room + 1) (length + 1) w =
      ((takeReady (room + 1) length { w with commitTrail := w.commitTrail.next }).1,
        (takeReady (room + 1) length { w with commitTrail := w.commitTrail.next }).2.addLoss) := by
  rw [takeReady, if_neg (not_or.2 ⟨unread, Nat.succ_ne_zero room⟩), found]
  exact if_pos lost

theorem takeReady_of_whole {slot : Slot} {count : Nat} (unread : w.commitTrail ≠ w.commitLead)
    (found : w.slots.get? w.commitTrail = some slot) (held : slot.state ≠ .lost)
    (whole : w.apduCount? w.commitTrail slot = some count) :
    takeReady (room + 1) (length + 1) w =
      ((takeReady room length (w.deliver count).1).1,
        (takeReady room length (w.deliver count).1).2.addMessage (w.deliver count).2) := by
  rw [takeReady, if_neg (not_or.2 ⟨unread, Nat.succ_ne_zero room⟩), found]
  simp only [if_neg held, whole, Nat.add_sub_cancel]

/-- What taking at most `room` messages does to the front of a window, piece by piece, and what it
hands out. -/
inductive Draws : Nat → Nat → Window → Window × Delivery → Prop
  | done {room length : Nat} {w : Window} (stop : w.commitTrail = w.commitLead ∨ room = 0 ∨
      length = 0 ∨ w.slots.get? w.commitTrail = none) : Draws room length w (w, .nothing .ok)
  | pass {room length : Nat} {w : Window} {slot : Slot} {taken : Window × Delivery}
      (unread : w.commitTrail ≠ w.commitLead) (found : w.slots.get? w.commitTrail = some slot)
      (lost : slot.state = .lost)
      (later : Draws (room + 1) length { w with commitTrail := w.commitTrail.next } taken) :
      Draws (room + 1) (length + 1) w (taken.1, taken.2.addLoss)
  /-- A slot that begins no whole APDU is not readable after all; no sound window has one there. -/
  | cut {room length : Nat} {w : Window} {slot : Slot}
      (unread : w.commitTrail ≠ w.commitLead) (found : w.slots.get? w.commitTrail = some slot)
      (held : slot.state ≠ .lost) (cut : w.apduCount? w.commitTrail slot = none) :
      Draws (room + 1) (length + 1) w ({ w with commitLead := w.commitTrail }, .nothing .ok)
  | deliver {room length : Nat} {w : Window} {slot : Slot} {count : Nat} {taken : Window × Delivery}
      (unread : w.commitTrail ≠ w.commitLead) (found : w.slots.get? w.commitTrail = some slot)
      (held : slot.state ≠ .lost) (whole : w.apduCount? w.commitTrail slot = some count)
      (later : Draws room length (w.deliver count).1 taken) :
      Draws (room + 1) (length + 1) w (taken.1, taken.2.addMessage (w.deliver count).2)

theorem draws_takeReady (room length : Nat) (w : Window) :
    Draws room length w (takeReady room length w) := by
  induction length generalizing room w with
  | zero => exact .done (.inr (.inr (.inl rfl)))
  | succ length ih =>
    cases room with
    | zero =>
      rw [takeReady, if_pos (.inr rfl)]
      exact .done (.inr (.inl rfl))
    | succ room =>
      rw [takeReady]
      split
      next stop => exact .done (stop.imp_right .inl)
      next more =>
        have unread := (not_or.1 more).1
        split
        next absent => exact .done (.inr (.inr (.inr absent)))
        next found =>
          split
          next lost => exact .pass unread found lost (ih (room + 1) _)
          next held =>
            split
            next cut => exact .cut unread found held cut
            next whole => exact .deliver unread found held whole (ih room _)

/-- At the front of an unread part stands a number given up or a whole APDU. -/
theorem Sound.front_cases (h : w.Sound) (unread : w.commitTrail ≠ w.commitLead) :
    ∃ slot, w.slots.get? w.commitTrail = some slot ∧
      (slot.state = .lost ∨
        slot.state ≠ .lost ∧ ∃ count, w.apduCount? w.commitTrail slot = some count) := by
  have hlt := h.place_lt_of_unread unread
  obtain ⟨slot, found⟩ :=
    SlotRing.exists_get? (contains_iff_place.2 (Nat.lt_of_lt_of_le hlt h.commitLead_le))
  refine ⟨slot, found, ?_⟩
  by_cases lost : slot.state = .lost
  · exact .inl lost
  · obtain ⟨_, _, -, -, -, whole⟩ := h.front unread found lost
    exact .inr ⟨lost, _, whole⟩

theorem Sound.apduCount?_ne_none (h : w.Sound) {slot : Slot} (unread : w.commitTrail ≠ w.commitLead)
    (found : w.slots.get? w.commitTrail = some slot) (held : slot.state ≠ .lost) :
    w.apduCount? w.commitTrail slot ≠ none := by
  obtain ⟨_, _, -, -, -, whole⟩ := h.front unread found held
  exact whole ▸ Option.some_ne_none _

theorem gap_passLost (unread : w.commitTrail ≠ w.commitLead) :
    w.commitTrail.next.gap w.commitLead + 1 = w.commitTrail.gap w.commitLead := by
  have hpos := Nat.pos_of_ne_zero (mt SeqNum.gap_eq_zero_iff.1 unread)
  rw [SeqNum.gap_next hpos]
  omega

/-- What is delivered is not empty, and the readable part is shorter by it. -/
theorem Sound.gap_deliver (h : w.Sound) {slot : Slot} {count : Nat}
    (unread : w.commitTrail ≠ w.commitLead) (found : w.slots.get? w.commitTrail = some slot)
    (held : slot.state ≠ .lost) (whole : w.apduCount? w.commitTrail slot = some count) :
    0 < count ∧ (w.deliver count).1.commitTrail.gap (w.deliver count).1.commitLead + count =
      w.commitTrail.gap w.commitLead := by
  obtain ⟨inside, hlength, hapdu, -⟩ := h.front_slice unread found held whole
  have hsize := h.size_le
  have hcl := h.commitLead_le
  have hgap := h.gap_readable
  have hframe := frame_deliver w count
  have hplace : w.place (w.commitTrail + count) = w.place w.commitTrail + count :=
    w.place_add (by omega)
  rw [show (w.deliver count).1.commitTrail = w.commitTrail + count from
      congrArg Frame.commitTrail hframe,
    show (w.deliver count).1.commitLead = w.commitLead from congrArg Frame.commitLead hframe,
    gap_eq_place_sub (w := w) (by omega), hplace]
  exact ⟨hlength ▸ hapdu.length_pos, by omega⟩

theorem takeReady_spec (length room : Nat) (h : w.Sound) :
    ∃ notes, w.Moves notes (takeReady room length w).1 ∧
      Reads notes (takeReady room length w).2.messages (takeReady room length w).2.losses ∧
      ∀ m ∈ (takeReady room length w).2.messages, w.HoldsMessage m := by
  have draws := draws_takeReady room length w
  generalize takeReady room length w = taken at draws ⊢
  induction draws with
  | done =>
    exact ⟨[], .done _, ⟨rfl, rfl, rfl, rfl, rfl, rfl, rfl, rfl, rfl⟩,
      fun m hm => absurd hm List.not_mem_nil⟩
  | pass unread found lost _ ih =>
    have first := Move.passLost unread found lost
    obtain ⟨notes, hmoves, hreads, hheld⟩ := ih (first.sound h)
    exact ⟨[.passed] ++ notes, first.moves.trans hmoves, hreads.passed, hheld⟩
  | cut unread found held cut => exact absurd cut (h.apduCount?_ne_none unread found held)
  | deliver unread found held whole _ ih =>
    have first := Move.deliver _ unread found held whole
    have hmessage := holdsMessage_deliver h unread found held whole
    obtain ⟨notes, hmoves, hreads, hholds⟩ := ih (first.sound h)
    refine ⟨[.delivered _] ++ notes, first.moves.trans hmoves, hreads.delivered _, ?_⟩
    intro m hm
    rcases List.mem_cons.1 hm with rfl | hm
    · exact hmessage
    · refine (hholds m hm).of_slots fun x old hx hd => ?_
      rw [get?_deliver] at hx
      split at hx
      · obtain ⟨_, -, rfl⟩ := Option.map_eq_some_iff.1 hx
        cases hd
      · exact hx

/-- Besides slots, queues and counters, reading changes `commitTrail` and `commitLead` only. -/
theorem frame_takeReady (room length : Nat) (w : Window) :
    (takeReady room length w).1.frame =
      { w.frame with
        commitTrail := (takeReady room length w).1.commitTrail
        commitLead := (takeReady room length w).1.commitLead } := by
  have draws := draws_takeReady room length w
  generalize takeReady room length w = taken at draws ⊢
  induction draws with
  | done | cut => rfl
  | pass _ _ _ _ ih =>
    rw [ih]
    rfl
  | deliver _ _ _ _ _ ih => rw [ih, frame_deliver]

theorem trail_readReady (w : Window) (count : Nat) : (w.readReady count).1.trail = w.trail := by
  have hread := congrArg Frame.trail
    (frame_takeReady count (w.commitTrail.gap w.commitLead) { w with unreportedLosses := 0 })
  exact (congrArg Frame.trail (frame_resolve _)).trans hread

theorem size_readReady (w : Window) (count : Nat) :
    (w.readReady count).1.slots.size = w.slots.size := by
  have hread := congrArg Frame.size
    (frame_takeReady count (w.commitTrail.gap w.commitLead) { w with unreportedLosses := 0 })
  exact (congrArg Frame.size (frame_resolve _)).trans hread

/-- A read leaves no losses untold. -/
theorem unreportedLosses_readReady (w : Window) (count : Nat) :
    (w.readReady count).1.unreportedLosses = 0 := by
  have hframe := frame_takeReady count (w.commitTrail.gap w.commitLead)
    { w with unreportedLosses := 0 }
  exact (congrArg Frame.unreportedLosses (frame_resolve _)).trans
    (congrArg Frame.unreportedLosses hframe)

/-- A read tells the losses that were not told before first. -/
theorem readReady_spec (h : w.Sound) (count : Nat) :
    ∃ notes, w.Moves notes (w.readReady count).1 ∧
      Reads notes (w.readReady count).2.messages (w.readReady count).2.losses ∧
      ∀ m ∈ (w.readReady count).2.messages, w.HoldsMessage m := by
  have first : w.Move [.reported w.unreportedLosses] { w with unreportedLosses := 0 } := .report
  obtain ⟨notes, hmoves, hreads, hholds⟩ :=
    takeReady_spec (w.commitTrail.gap w.commitLead) count (first.sound h)
  refine ⟨[.reported w.unreportedLosses] ++ notes, (first.moves.trans hmoves).resolve h, ?_,
    fun m hm => (hholds m hm).of_slots fun _ _ hx _ => hx⟩
  exact hreads.reported w.unreportedLosses

/-- A window without a place has nothing to read. -/
theorem readReady_of_undefined (h : w.Sound) (undefined : w.isDefined = false) (count : Nat) :
    (w.readReady count).2 = .nothing .ok := by
  obtain ⟨hsize, -, hunreported⟩ := h.blank undefined
  have hcl := h.commitLead_le
  have hgap : w.commitTrail.gap w.commitLead = 0 := by
    rw [h.gap_readable]
    omega
  rw [readReady, hgap, hunreported]
  rfl

/-! ### Reclaiming -/

/-- What reclaiming of at most `limit` slots does to a window, slot by slot. -/
inductive Releases : Nat → Window → Window → Prop
  | done {limit : Nat} {w : Window} (stop : limit = 0 ∨ ¬ w.trail.Before w.commitTrail) :
      Releases limit w w
  /-- The slot at the trail is kept for its group. -/
  | hold {limit : Nat} {w : Window} (before : w.trail.Before w.commitTrail)
      (retained : w.isRetained w.trail) : Releases (limit + 1) w (w.modify w.trail Slot.retain)
  | drop {limit : Nat} {w w' : Window} (before : w.trail.Before w.commitTrail)
      (unneeded : w.isRetained w.trail = false) (later : Releases limit w.dropTrail w') :
      Releases (limit + 1) w w'

theorem releases_releaseUpTo (limit : Nat) (w : Window) :
    Releases limit w (releaseUpTo limit w).1 := by
  induction limit generalizing w with
  | zero => exact .done (.inl rfl)
  | succ limit ih =>
    rw [releaseUpTo]
    split
    next reached => exact .done (.inr reached)
    next hbefore =>
      have before := Decidable.not_not.1 hbefore
      split
      next retained => exact .hold before retained
      next unneeded => exact .drop before (Bool.eq_false_iff.2 unneeded) (ih w.dropTrail)

/-- The trail is before the reader exactly if there is something behind the reader. -/
theorem Sound.trail_before_iff (h : w.Sound) :
    w.trail.Before w.commitTrail ↔ 0 < w.place w.commitTrail := by
  have htrail := w.place_trail
  rw [h.before_iff (by omega) h.place_commitTrail_le, htrail]

theorem moves_releaseUpTo (limit : Nat) (h : w.Sound) : w.Moves [] (releaseUpTo limit w).1 := by
  have releases := releases_releaseUpTo limit w
  generalize (releaseUpTo limit w).1 = w' at releases ⊢
  induction releases with
  | done => exact .done _
  | hold before retained =>
    exact (Move.retain _ (by rwa [place_trail, ← h.trail_before_iff]) retained).moves
  | drop before unneeded later ih =>
    have first := Move.reclaim (h.trail_before_iff.1 before)
    exact first.moves.silent_trans (ih (first.sound h))

@[simp] theorem frame_freeSlot (w : Window) (s : SeqNum) : (w.freeSlot s).frame = w.frame :=
  frame_modify w s _

theorem move_freeSlot {s : SeqNum} (behind : w.place s < w.place w.commitTrail) :
    ∃ numbers : List SeqNum, w.Move (numbers.map .freed) (w.freeSlot s) := by
  unfold freeSlot
  split
  next hretained => exact ⟨[], .retain s behind hretained⟩
  next hfree => exact ⟨[s], .free s behind (Bool.eq_false_iff.2 hfree)⟩

/-- What is delivered and not reclaimed lies behind `commitTrail`. -/
theorem Sound.behind_of_mem (h : w.Sound) :
    ∀ s ∈ w.trail.upTo w.commitTrail, w.place s < w.place w.commitTrail := by
  intro s hs
  have hle := h.place_commitTrail_le
  have hsize := h.size_le
  have hsteps : w.trail.steps w.commitTrail = w.place w.commitTrail :=
    SeqNum.steps_eq_gap (show w.place w.commitTrail ≤ _ by omega)
  rw [SeqNum.upTo, hsteps] at hs
  obtain ⟨k, hk, rfl⟩ := SeqNum.mem_run.1 hs
  rwa [place, SeqNum.gap_add _ (by omega)]

/-- Freeing a slot moves no place. -/
theorem place_freeSlot (w : Window) (s x : SeqNum) : (w.freeSlot s).place x = w.place x := by
  rw [place, place, show (w.freeSlot s).trail = w.trail from congrArg Frame.trail (frame_freeSlot w s)]

theorem commitTrail_freeSlot (w : Window) (s : SeqNum) :
    (w.freeSlot s).commitTrail = w.commitTrail := congrArg Frame.commitTrail (frame_freeSlot w s)

theorem moves_freeDelivered (h : w.Sound) :
    ∃ numbers : List SeqNum, w.Moves (numbers.map .freed) w.freeDelivered := by
  have behind := h.behind_of_mem
  unfold freeDelivered
  generalize w.trail.upTo w.commitTrail = numbers at behind
  clear h
  induction numbers generalizing w with
  | nil => exact ⟨[], .done w⟩
  | cons s numbers ih =>
    rw [List.foldl_cons]
    obtain ⟨freed, first⟩ := move_freeSlot (behind s (List.mem_cons_self ..))
    obtain ⟨more, later⟩ := ih (w := w.freeSlot s) fun x hx => by
      rw [place_freeSlot, place_freeSlot, commitTrail_freeSlot]
      exact behind x (List.mem_cons_of_mem s hx)
    exact ⟨freed ++ more, List.map_append ▸ first.moves.trans later⟩

end Window

end ReliableMulticast
