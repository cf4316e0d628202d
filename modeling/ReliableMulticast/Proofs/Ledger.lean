import ReliableMulticast.Proofs.Preservation

/-!
# The books of a window

What the notes of a move say about the counters of the window. `commitTrail` moves over what is
delivered, over the losses that are passed and over the numbers that leave undelivered, and over
nothing else. Every loss is counted when it happens, and waits either in a slot ahead of
`commitTrail` or among the unreported losses until the reader is told.
-/

namespace ReliableMulticast

namespace Note

/-- How far `commitTrail` moves. -/
def advance (notes : List Note) : Nat :=
  ((messages notes).map Message.packets).sum + passes notes + drops notes

theorem Quiet.advance {notes : List Note} (h : Quiet notes) : advance notes = 0 := by
  rw [Note.advance, h.messages, h.passes, h.drops]
  rfl

theorem advance_append (notes more : List Note) :
    advance (notes ++ more) = advance notes + advance more := by
  simp only [advance, messages_append, passes_append, drops_append, List.map_append,
    List.sum_append]
  omega

/-- Every slot given up that is passed is told. -/
theorem passes_le_told (notes : List Note) : passes notes ≤ told notes := by
  induction notes with
  | nil => exact Nat.le_refl 0
  | cons note notes ih =>
    simp only [passes, told, List.map_cons, List.sum_cons] at ih ⊢
    cases note <;> simp only <;> omega

end Note

def Slot.isLost (slot : Slot) : Bool := slot.state = .lost

namespace Window

variable {w w' : Window} {notes : List Note}

/-! ### The reader's place -/

theorem Sound.exists_popTrail? (nonempty : 0 < w.slots.size) :
    ∃ slot slots, w.slots.popTrail? = some (slot, slots) := by
  obtain ⟨⟨slot, slots⟩, hpop⟩ := Option.ne_none_iff_exists'.1
    (mt SlotRing.popTrail?_eq_none_iff.1 (Nat.pos_iff_ne_zero.1 nonempty))
  exact ⟨slot, slots, hpop⟩

/-- The slot at the trail leaves, and nothing else changes. -/
theorem dropTrail_spec (nonempty : 0 < w.slots.size) :
    w.dropTrail.commitTrail = w.commitTrail ∧ w.dropTrail.next = w.next ∧
      ∀ x, w.dropTrail.slots.get? x = if x = w.trail then none else w.slots.get? x := by
  obtain ⟨slot, slots, hpop⟩ := Sound.exists_popTrail? nonempty
  obtain ⟨-, -, -, -, hget⟩ := SlotRing.popTrail?_eq_some hpop
  rw [show w.dropTrail = { w with slots } by rw [dropTrail, hpop]]
  exact ⟨rfl, SlotRing.next_of_popTrail? hpop, hget⟩

theorem Move.commitTrail_eq (hm : w.Move notes w') (h : w.Sound) (defined : w.isDefined) :
    w'.commitTrail = w.commitTrail + Note.advance notes := by
  cases hm.framed with
  | same frame quiet =>
    rw [quiet.advance, SeqNum.add_zero]
    exact congrArg Frame.commitTrail frame
  | append slot quiet => rw [quiet.advance, SeqNum.add_zero, append]
  | define trail undefined =>
    rw [undefined] at defined
    cases defined
  | reclaim => exact (commitTrail_dropTrail w).trans (SeqNum.add_zero _).symm
  | overrun front nonempty =>
    obtain ⟨slot, slots, hpop⟩ := Sound.exists_popTrail? nonempty
    rw [Sound.evictTrail_of_front front hpop]
    have htrail := (SlotRing.popTrail?_eq_some hpop).2.2.1
    rw [← SeqNum.gap_eq_zero_iff.1 front]
    exact htrail
  | skip target _ empty ahead =>
    rw [h.skip_eq empty ahead]
    have hct : w.commitTrail = w.trail := by
      have := h.place_commitTrail_le
      exact (SeqNum.gap_eq_zero_iff.1 (show w.place w.commitTrail = 0 by omega)).symm
    rw [hct]
    simp [Note.advance, Note.drops, Note.messages, Note.passes, SeqNum.add_gap]
  | passLost => rfl
  | deliver count => exact congrArg Frame.commitTrail (frame_deliver w count)
  | regroup | pass | report => exact (SeqNum.add_zero _).symm

theorem Moves.commitTrail_eq (hm : w.Moves notes w') (h : w.Sound) (defined : w.isDefined) :
    w'.commitTrail = w.commitTrail + Note.advance notes := by
  induction hm with
  | done => exact (SeqNum.add_zero _).symm
  | next first _ ih =>
    rw [ih (first.sound h) (first.keeps.isDefined defined), first.commitTrail_eq h defined,
      SeqNum.add_add, Note.advance_append]

/-! ### Losses that the reader was not told -/

/-- A move tells all unreported losses, or counts numbers that leave among them as far as they can
be counted, or leaves them alone. -/
theorem Move.unreported_cases (hm : w.Move notes w') (h : w.Sound) :
    (notes = [.reported w.unreportedLosses] ∧ w'.unreportedLosses = 0) ∨
      (∃ n, notes = [.dropped n] ∧
        w'.unreportedLosses = min (w.unreportedLosses + n) maxReported) ∨
      (Note.drops notes = 0 ∧ Note.told notes = Note.passes notes ∧
        w'.unreportedLosses = w.unreportedLosses) := by
  have still : Note.Quiet notes → w'.unreportedLosses = w.unreportedLosses →
      Note.drops notes = 0 ∧ Note.told notes = Note.passes notes ∧
        w'.unreportedLosses = w.unreportedLosses :=
    fun quiet hu => ⟨quiet.drops, quiet.told.trans quiet.passes.symm, hu⟩
  cases hm.framed with
  | report => exact .inl ⟨rfl, rfl⟩
  | overrun front nonempty =>
    obtain ⟨slot, slots, hpop⟩ := Sound.exists_popTrail? nonempty
    rw [Sound.evictTrail_of_front front hpop]
    exact .inr (.inl ⟨1, rfl, rfl⟩)
  | skip target _ empty ahead =>
    rw [h.skip_eq empty ahead]
    exact .inr (.inl ⟨_, rfl, rfl⟩)
  | same frame quiet => exact .inr (.inr (still quiet (congrArg Frame.unreportedLosses frame)))
  | append slot quiet => exact .inr (.inr (still quiet rfl))
  | reclaim => exact .inr (.inr ⟨rfl, rfl, unreportedLosses_dropTrail w⟩)
  | deliver count =>
    exact .inr (.inr ⟨rfl, rfl, congrArg Frame.unreportedLosses (frame_deliver w count)⟩)
  | regroup | define | pass | passLost => exact .inr (.inr ⟨rfl, rfl, rfl⟩)

/-- What passes the reader is told to it or waits to be told, unless it is too much to be counted. -/
theorem Moves.unreported_eq (hm : w.Moves notes w') (h : w.Sound)
    (unsaturated : w.unreportedLosses + Note.drops notes ≤ maxReported) :
    w'.unreportedLosses + Note.told notes =
      w.unreportedLosses + Note.passes notes + Note.drops notes := by
  induction hm with
  | done => rfl
  | @next w w' w'' notes more first _ ih =>
    rw [Note.drops_append] at unsaturated
    rw [Note.told_append, Note.passes_append, Note.drops_append]
    have later := ih (first.sound h)
    rcases first.unreported_cases h with ⟨rfl, hu⟩ | ⟨n, rfl, hu⟩ | ⟨hd, ht, hu⟩
    · have : Note.told [.reported w.unreportedLosses] = w.unreportedLosses := Nat.add_zero _
      have : Note.passes [.reported w.unreportedLosses] = 0 := rfl
      have : Note.drops [.reported w.unreportedLosses] = 0 := rfl
      omega
    · have : Note.told [.dropped n] = 0 := rfl
      have : Note.passes [.dropped n] = 0 := rfl
      have : Note.drops [.dropped n] = n := Nat.add_zero n
      omega
    · omega

theorem Moves.unreported_le (hm : w.Moves notes w') (h : w.Sound)
    (hmax : w.unreportedLosses ≤ maxReported) : w'.unreportedLosses ≤ maxReported := by
  induction hm with
  | done => exact hmax
  | next first _ ih =>
    refine ih (first.sound h) ?_
    rcases first.unreported_cases h with ⟨-, hu⟩ | ⟨n, -, hu⟩ | ⟨-, -, hu⟩ <;> omega

/-- Without a report the numbers that leave add up, as far as they can be counted. -/
theorem Moves.unreported_eq_min (hm : w.Moves notes w') (h : w.Sound) (quiet : Note.told notes = 0)
    (hmax : w.unreportedLosses ≤ maxReported) :
    w'.unreportedLosses = min (w.unreportedLosses + Note.drops notes) maxReported := by
  induction hm with
  | done => exact (Nat.min_eq_left hmax).symm
  | @next w w' w'' notes more first _ ih =>
    rw [Note.told_append] at quiet
    rw [Note.drops_append]
    have later := ih (first.sound h) (by omega)
    rcases first.unreported_cases h with ⟨rfl, hu⟩ | ⟨n, rfl, hu⟩ | ⟨hd, -, hu⟩
    · have : Note.told [.reported w.unreportedLosses] = w.unreportedLosses := Nat.add_zero _
      have : Note.drops [.reported w.unreportedLosses] = 0 := rfl
      omega
    · have : Note.drops [.dropped n] = n := Nat.add_zero n
      omega
    · omega

/-! ### Losses ahead -/

/-- The slots from `commitTrail` to the lead. -/
def unread (w : Window) : List Slot := w.slots.slice w.commitTrail (w.commitTrail.gap w.next)

/-- How many of them were given up. -/
def lostAhead (w : Window) : Nat := w.unread.countP Slot.isLost

/-- A change of slots that neither gives one up nor brings one back. -/
theorem lostAhead_of_frame_eq (hf : w'.frame = w.frame)
    (h : ∀ x, (w'.slots.get? x).any Slot.isLost = (w.slots.get? x).any Slot.isLost) :
    w'.lostAhead = w.lostAhead := by
  have hct : w'.commitTrail = w.commitTrail := congrArg Frame.commitTrail hf
  rw [lostAhead, lostAhead, unread, unread, hct, next_of_frame_eq hf]
  exact SlotRing.countP_slice_congr fun k _ => h _

theorem lostAhead_modify {s : SeqNum} {change : Slot → Slot}
    (h : ∀ slot, w.slots.get? s = some slot → (change slot).isLost = slot.isLost) :
    (w.modify s change).lostAhead = w.lostAhead := by
  refine lostAhead_of_frame_eq (frame_modify w s change) fun x => ?_
  rw [get?_modify]
  split
  next hx =>
    subst hx
    cases hs : w.slots.get? x with
    | none => rfl
    | some slot => exact h slot hs
  · rfl

theorem isLost_of_repairPending {slot : Slot} (h : slot.state.repairPending) :
    slot.isLost = false := by
  rw [Slot.isLost, decide_eq_false_iff_not]
  intro hl
  rw [hl] at h
  cases h

/-- A slot that waits for its packet is not lost. -/
theorem lostAhead_modify_pending {s : SeqNum} {slot : Slot} {change : Slot → Slot}
    (found : w.slots.get? s = some slot) (pending : slot.state.repairPending)
    (kept : (change slot).isLost = false) : (w.modify s change).lostAhead = w.lostAhead := by
  refine lostAhead_modify fun old hs => ?_
  obtain rfl := Option.some.inj (found.symm.trans hs)
  rw [kept, isLost_of_repairPending pending]

theorem lostAhead_append (h : w.Sound) {slot : Slot} (next : slot.sequence = w.next)
    (room : w.slots.size < w.capacity) (held : slot.isLost = false) :
    (w.append slot).lostAhead = w.lostAhead := by
  have hct := h.place_commitTrail_le
  have hsize := h.size_le
  have hgap := h.gap_next
  have hslots := Sound.slots_append next room
  have hnext : (w.append slot).next = w.next + 1 := by
    rw [Window.next, hslots]
    exact (SeqNum.add_next w.trail w.slots.size).symm
  have hgap' : (w.append slot).commitTrail.gap (w.append slot).next =
      w.commitTrail.gap w.next + 1 := by
    rw [show (w.append slot).commitTrail = w.commitTrail from rfl, hnext]
    exact SeqNum.gap_add_right (by omega)
  have hget := Sound.get?_append next room
  rw [lostAhead, unread, hgap', SlotRing.countP_slice_succ,
    show (w.append slot).commitTrail = w.commitTrail from rfl, SeqNum.add_gap, hget, if_pos rfl,
    Option.any_some, held]
  refine SlotRing.countP_slice_congr fun k hk => ?_
  have hne : w.commitTrail + k ≠ w.next := by
    intro he
    have := SeqNum.gap_add w.commitTrail (n := k) (by omega)
    rw [he] at this
    omega
  rw [hget, if_neg hne]

/-! ### The count of losses -/

theorem losses_giveUpSlot {s : SeqNum} (hs : w.Ahead s) :
    (w.giveUpSlot s).counters.losses + w.lostAhead =
      w.counters.losses + (w.giveUpSlot s).lostAhead := by
  have hget := w.get?_giveUpSlot s
  have hf := frame_giveUpSlot w s
  cases hslot : w.slots.get? s with
  | none =>
    have : w.giveUpSlot s = w := by rw [giveUpSlot, hslot]
    rw [this]
  | some slot =>
    by_cases hlost : slot.state = .lost
    · have : w.giveUpSlot s = w := by
        rw [giveUpSlot, hslot]
        exact if_pos hlost
      rw [this]
    · have hcount : (w.giveUpSlot s).counters.losses = w.counters.losses + 1 := by
        rw [giveUpSlot, hslot]
        simp only [if_neg hlost, Counters.addLosses]
      have hct : (w.giveUpSlot s).commitTrail = w.commitTrail := congrArg Frame.commitTrail hf
      have hahead : (w.giveUpSlot s).lostAhead = w.lostAhead + 1 := by
        rw [lostAhead, lostAhead, unread, unread, hct, next_of_frame_eq hf]
        refine SlotRing.countP_slice_add_one hs ?_ ?_ fun k hk hne => ?_
        · rw [SeqNum.add_gap, hslot, Option.any_some, Slot.isLost, decide_eq_false hlost]
        · rw [SeqNum.add_gap, hget, if_pos rfl, hslot, Option.map_some, Option.any_some,
            Slot.isLost, slot.state_lose, decide_eq_true rfl]
        · rw [hget, if_neg]
          intro he
          have hgap := w.commitTrail.gap_lt w.next
          rw [← he, SeqNum.gap_add _ (by omega)] at hne
          exact hne rfl
      omega

theorem losses_giveUpMembers (first : SeqNum) (numbers : List SeqNum)
    (ahead : ∀ s ∈ numbers, w.Ahead s) :
    (numbers.foldl (giveUpMember first) w).counters.losses + w.lostAhead =
      w.counters.losses + (numbers.foldl (giveUpMember first) w).lostAhead := by
  induction numbers generalizing w with
  | nil => rfl
  | cons s numbers ih =>
    rw [List.foldl_cons]
    have here : (giveUpMember first w s).counters.losses + w.lostAhead =
        w.counters.losses + (giveUpMember first w s).lostAhead := by
      unfold giveUpMember
      split
      · exact losses_giveUpSlot (ahead s (List.mem_cons_self ..))
      · rfl
    have later := ih (w := giveUpMember first w s) fun x hx =>
      ahead_of_frame_eq (frame_giveUpMember first w s) (ahead x (List.mem_cons_of_mem s hx))
    omega

theorem losses_loseApdu (h : w.Sound) {s : SeqNum} (hs : w.Ahead s) :
    (w.loseApdu s).counters.losses + w.lostAhead =
      w.counters.losses + (w.loseApdu s).lostAhead := by
  have here := losses_giveUpSlot hs
  cases hf : (w.slots.get? s).bind Slot.fragment with
  | none =>
    rw [loseApdu_of_none hf]
    exact here
  | some f =>
    rw [loseApdu_of_some hf]
    have later := losses_giveUpMembers f.apduFirst (w.spread f.apduFirst s)
      (w := w.giveUpSlot s) fun x hx =>
        ahead_of_frame_eq (frame_giveUpSlot w s) (ahead_of_mem_spread h hs hx)
    omega

/-- Slots that neither leave nor come to be ahead of `commitTrail`. -/
theorem lostAhead_of_slots (hct : w'.commitTrail = w.commitTrail) (hnext : w'.next = w.next)
    (h : ∀ k, k < w.commitTrail.gap w.next →
      w'.slots.get? (w.commitTrail + k) = w.slots.get? (w.commitTrail + k)) :
    w'.lostAhead = w.lostAhead := by
  rw [lostAhead, lostAhead, unread, unread, hct, hnext, SlotRing.slice_congr h]

theorem lostAhead_reclaim (h : w.Sound) (behind : 0 < w.place w.commitTrail) :
    w.dropTrail.lostAhead = w.lostAhead := by
  have hct := h.place_commitTrail_le
  have hsize := h.size_le
  have hgap := h.gap_next
  obtain ⟨hframe, hnext, hget⟩ := dropTrail_spec (w := w) (by omega)
  refine lostAhead_of_slots hframe hnext fun k hk => ?_
  rw [hget, if_neg]
  intro he
  have hplace := w.place_add (x := w.commitTrail) (n := k) (by omega)
  rw [he, w.place_trail] at hplace
  omega

/-- The undelivered slot at the trail is lost when it leaves, if it was not before. -/
theorem losses_overrun (h : w.Sound) (front : w.place w.commitTrail = 0)
    (nonempty : 0 < w.slots.size) :
    w.evictTrail.counters.losses + w.lostAhead =
      w.counters.losses + w.evictTrail.lostAhead + 1 := by
  obtain ⟨slot, slots, hpop⟩ := Sound.exists_popTrail? nonempty
  obtain ⟨hslot, -, htrail, hpred, hget⟩ := SlotRing.popTrail?_eq_some hpop
  have hct : w.commitTrail = w.slots.trail := (SeqNum.gap_eq_zero_iff.1 front).symm
  have hsize := h.size_le
  have hgap : w.commitTrail.gap w.next = slots.size + 1 := by
    rw [h.gap_next, front]
    omega
  have hgap' : slots.trail.gap slots.next = slots.size := SeqNum.gap_add _ (by omega)
  have hslice : slots.slice slots.trail slots.size = w.slots.slice slots.trail slots.size := by
    refine SlotRing.slice_congr fun k hk => ?_
    rw [hget, if_neg]
    rw [htrail, SeqNum.next_add]
    intro he
    have := SeqNum.gap_add w.slots.trail (n := k + 1) (by omega)
    rw [he, SeqNum.gap_self] at this
    omega
  rw [Sound.evictTrail_of_front front hpop]
  change w.counters.losses + (if slot.state = .lost then 0 else 1) + w.lostAhead =
    w.counters.losses + (slots.slice slots.trail (slots.trail.gap slots.next)).countP _ + 1
  rw [lostAhead, unread, hgap, hgap', hslice, hct, SlotRing.slice_succ hslot, List.countP_cons,
    htrail]
  by_cases hl : slot.state = .lost <;> simp [Slot.isLost, hl] <;> omega

theorem lostAhead_of_empty (h : w.Sound) (empty : w.slots.size = 0) : w.lostAhead = 0 := by
  rw [lostAhead, unread, h.gap_next, empty, Nat.zero_sub]
  rfl

theorem lostAhead_passLost (h : w.Sound) {slot : Slot} (unread : w.commitTrail ≠ w.commitLead)
    (found : w.slots.get? w.commitTrail = some slot) (lost : slot.state = .lost) :
    w.lostAhead = { w with commitTrail := w.commitTrail.next }.lostAhead + 1 := by
  have hlt := h.place_lt_of_unread unread
  have hcl := h.commitLead_le
  have hgap : w.commitTrail.gap w.next = w.commitTrail.next.gap w.next + 1 := by
    rw [SeqNum.gap_next (by rw [h.gap_next]; omega), h.gap_next]
    omega
  rw [lostAhead, Window.unread, hgap, SlotRing.slice_succ found, List.countP_cons, Slot.isLost,
    lost]
  rfl

theorem lostAhead_deliver (h : w.Sound) {slot : Slot} {count : Nat}
    (unread : w.commitTrail ≠ w.commitLead) (found : w.slots.get? w.commitTrail = some slot)
    (held : slot.state ≠ .lost) (whole : w.apduCount? w.commitTrail slot = some count) :
    (w.deliver count).1.lostAhead = w.lostAhead := by
  obtain ⟨hinside, -, hapdu, -⟩ := h.front_slice unread found held whole
  have hle := h.commitTrail_le
  have hcl := h.commitLead_le
  have hsize := h.size_le
  have hframe := frame_deliver w count
  have hnext : (w.deliver count).1.next = w.next := by
    rw [Window.next, Window.next, SlotRing.next, SlotRing.next,
      show (w.deliver count).1.slots.trail = w.slots.trail from congrArg Frame.trail hframe,
      show (w.deliver count).1.slots.size = w.slots.size from congrArg Frame.size hframe]
  have hplace : w.place (w.commitTrail + count) = w.place w.commitTrail + count :=
    w.place_add (by omega)
  have hrest : (w.commitTrail + count).gap w.next =
      w.slots.size - (w.place w.commitTrail + count) := by
    rw [gap_eq_place_sub (w := w) (by rw [place_next]; omega), hplace, place_next]
  have hgap : w.commitTrail.gap w.next = count + (w.commitTrail + count).gap w.next := by
    rw [h.gap_next, hrest]
    omega
  have hfirst : (w.slots.slice w.commitTrail count).countP Slot.isLost = 0 := by
    refine List.countP_eq_zero.2 fun old hold => ?_
    rw [Slot.isLost, decide_eq_true_eq]
    exact (SlotState.hasData_iff.1 (hapdu.hasData old hold)).1
  rw [lostAhead, Window.unread, show (w.deliver count).1.commitTrail = w.commitTrail + count from
    congrArg Frame.commitTrail hframe, hnext, lostAhead, Window.unread, hgap, SlotRing.slice_add,
    List.countP_append, hfirst, Nat.zero_add]
  refine SlotRing.countP_slice_congr fun k hk => ?_
  rw [get?_deliver, if_neg]
  rw [h.mem_run_commitTrail (by omega), SeqNum.add_add, w.place_add (by omega)]
  omega

theorem losses_fillSlot (w : Window) (slot : Slot) (p : Packet) (source : Option RepairSource)
    (now : Timestamp) : (w.fillSlot slot p source now).counters.losses = w.counters.losses ∧
      (w.fillSlot slot p source now).counters.malformed = w.counters.malformed := by
  unfold fillSlot
  simp only
  split <;> split <;> exact ⟨rfl, rfl⟩

theorem Move.losses_eq (hm : w.Move notes w') (h : w.Sound) :
    w'.counters.losses + w.lostAhead =
      w.counters.losses + w'.lostAhead + Note.passes notes + Note.drops notes := by
  have same : ∀ {v : Window}, v.lostAhead = w.lostAhead →
      w.counters.losses + w.lostAhead = w.counters.losses + v.lostAhead + 0 + 0 := by
    intro v hv
    rw [hv]
    rfl
  cases hm with
  | aside frame slots losses =>
    rw [losses]
    exact same (lostAhead_of_frame_eq frame fun x => by rw [slots])
  | refuse | regroup | pass | report => rfl
  | define trail undefined =>
    have hnew : (w.define trail).lostAhead = 0 := lostAhead_of_empty (h.define trail) rfl
    exact same (by rw [hnew, lostAhead_of_empty h (h.blank undefined).1])
  | addPlaceholder now _ room => exact same (lostAhead_append h rfl room rfl)
  | addPacket p now _ next room => exact same (lostAhead_append h next room rfl)
  | @fill slot p source now found pending =>
    have hfill := (w.losses_fillSlot slot p source now).1
    have hslots : (w.fillSlot slot p source now).lostAhead = (w.modify p.sequence fun slot =>
        slot.fill p.payload p.fragment (source = some .parity)).lostAhead := rfl
    rw [hfill]
    exact same (hslots.trans (lostAhead_modify_pending found pending rfl))
  | wait s change found pending waits =>
    exact same (lostAhead_modify_pending found pending
      (isLost_of_repairPending (waits.pending pending)))
  | keep s p found pending => exact same (lostAhead_modify_pending found pending rfl)
  | lose s ahead => exact losses_loseApdu h ahead
  | collapse found => exact losses_loseApdu h (h.ahead_of_commitLead found)
  | garble found =>
    have counted : { w with counters := w.counters.addMalformed }.Sound := h.of_slots_eq rfl rfl
    exact losses_loseApdu counted (h.ahead_of_commitLead found)
  | orphan found =>
    have ahead : w.Ahead w.commitLead := h.ahead_iff.2 ⟨h.commitTrail_le, place_lt_of_get? found⟩
    exact losses_giveUpSlot ahead
  | reclaim behind =>
    rw [counters_dropTrail]
    exact same (lostAhead_reclaim h behind)
  | overrun front nonempty => exact losses_overrun h front nonempty
  | skip target defined empty ahead =>
    have hnew : (w.skipTo target).clampCommit.lostAhead = 0 :=
      lostAhead_of_empty (h.skip defined empty ahead) (by rw [h.skip_eq empty ahead]; rfl)
    rw [hnew, lostAhead_of_empty h empty, h.skip_eq empty ahead]
    rfl
  | passLost unread found lost =>
    have hpass := lostAhead_passLost h unread found lost
    change w.counters.losses + w.lostAhead = w.counters.losses + _ + 1
    omega
  | deliver count unread found held whole =>
    exact same (lostAhead_deliver h unread found held whole)
  | retain s =>
    refine same (lostAhead_modify fun slot _ => ?_)
    rcases slot.retain_cases with he | ⟨hc, he⟩ <;> rw [he]
    rw [Slot.isLost, Slot.isLost, hc]
    rfl
  | free s =>
    refine same (lostAhead_modify fun slot _ => ?_)
    rw [Slot.isLost, Slot.isLost, slot.state_dropPayload]

/-- A loss is counted when it happens: when a slot ahead is given up, or when a number leaves
undelivered that was not given up before. -/
theorem Moves.losses_eq (hm : w.Moves notes w') (h : w.Sound) :
    w'.counters.losses + w.lostAhead =
      w.counters.losses + w'.lostAhead + Note.passes notes + Note.drops notes := by
  induction hm with
  | done => rfl
  | next first _ ih =>
    have here := first.losses_eq h
    have later := ih (first.sound h)
    rw [Note.passes_append, Note.drops_append]
    omega

/-! ### Where the window begins -/

/-- If nothing is read, `commitTrail` is at the trail if it was there before or a number leaves. -/
theorem Move.commitTrail_eq_trail (hm : w.Move notes w') (h : w.Sound)
    (unread : Note.messages notes = [] ∧ Note.passes notes = 0)
    (front : w.commitTrail = w.trail ∨ 0 < Note.drops notes) : w'.commitTrail = w'.trail := by
  have kept : Note.drops notes = 0 → w.commitTrail = w.trail :=
    fun still => front.resolve_right (by omega)
  cases hm.framed with
  | same frame quiet =>
    rw [show w'.commitTrail = w.commitTrail from congrArg Frame.commitTrail frame,
      show w'.trail = w.trail from congrArg Frame.trail frame]
    exact kept quiet.drops
  | append slot quiet _ next room =>
    rw [Window.trail, Sound.slots_append next room]
    exact kept quiet.drops
  | define => rfl
  | reclaim behind =>
    rw [place, kept rfl, SeqNum.gap_self] at behind
    cases behind
  | overrun hfront nonempty =>
    obtain ⟨slot, slots, hpop⟩ := Sound.exists_popTrail? nonempty
    rw [Sound.evictTrail_of_front hfront hpop]
    rfl
  | skip target _ empty ahead =>
    rw [h.skip_eq empty ahead]
    rfl
  | passLost => cases unread.2
  | deliver => cases unread.1
  | regroup | pass | report => exact kept rfl

theorem Moves.commitTrail_eq_trail (hm : w.Moves notes w') (h : w.Sound)
    (unread : Note.messages notes = [] ∧ Note.passes notes = 0)
    (front : w.commitTrail = w.trail ∨ 0 < Note.drops notes) : w'.commitTrail = w'.trail := by
  induction hm with
  | done => exact front.resolve_right (Nat.lt_irrefl 0)
  | @next w w' w'' notes more first _ ih =>
    rw [Note.messages_append, Note.passes_append, List.append_eq_nil_iff] at unread
    rw [Note.drops_append] at front
    refine ih (first.sound h) ⟨unread.1.2, by omega⟩ ?_
    by_cases hlater : 0 < Note.drops more
    · exact .inr hlater
    · refine .inl (first.commitTrail_eq_trail h ⟨unread.1.1, by omega⟩ ?_)
      rcases front with hfront | hfront
      · exact .inl hfront
      · exact .inr (by omega)

/-- The numbers that leave a window undelivered if it turns into another one: those over which its
trail passes its `commitTrail`. -/
def leaving (w w' : Window) : Nat := if w.isDefined then w.commitTrail.steps w'.trail else 0

/-- If nothing is read, the numbers that left show in the place of the window. -/
theorem Moves.drops_eq_leaving (hm : w.Moves notes w') (h : w.Sound) (defined : w.isDefined)
    (unread : Note.messages notes = [] ∧ Note.passes notes = 0)
    (hd : Note.drops notes ≤ 2147483648) : Note.drops notes = w.leaving w' := by
  have hct := hm.commitTrail_eq h defined
  have hadvance : Note.advance notes = Note.drops notes := by
    rw [Note.advance, unread.1, unread.2]
    exact Nat.zero_add _
  rw [leaving, if_pos defined]
  rw [hadvance] at hct
  by_cases hz : Note.drops notes = 0
  · have hnot := (hm.sound h).not_before_trail
    rw [hct, hz, SeqNum.add_zero] at hnot
    rw [hz, SeqNum.steps, if_neg hnot]
  · have htrail := hm.commitTrail_eq_trail h unread (.inr (Nat.pos_of_ne_zero hz))
    have hgap : w.commitTrail.gap w'.trail = Note.drops notes := by
      rw [← htrail, hct, SeqNum.gap_add _ (by omega)]
    rw [SeqNum.steps_eq_gap (by omega), hgap]

end Window

end ReliableMulticast
