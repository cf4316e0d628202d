import ReliableMulticast.Proofs.Ledger

/-!
# What a move makes of a slot

A move leaves a slot as it is, makes it anew or turns it into what `Turns` lists, with the reason. So
what the slots of a window keep is proved by the cases of `Move.slot_cases` and not move by move.
-/

namespace ReliableMulticast.Window

/-- Giving up `s` with its APDU gives up `x`: it is `s`, or it lies where the loss spreads to and is a
fragment of the APDU or missing. -/
def TakesAlong (w : Window) (s x : SeqNum) : Prop :=
  x = s ∨ ∃ slot f other, w.slots.get? s = some slot ∧ slot.fragment = some f ∧
    x ∈ w.spread f.apduFirst s ∧ w.slots.get? x = some other ∧
    (other.isFragmentOf f.apduFirst ∨ other.state.repairPending)

/-- How the slot of a number comes into a window. -/
inductive Arises (w : Window) (x : SeqNum) : List Note → Slot → Prop
  | placeholder (now expiry : Timestamp) (next : x = w.next) :
      Arises w x [] (.placeholder x now expiry)
  | packet (p : Packet) (now : Timestamp) (here : p.sequence = x) (next : x = w.next) :
      Arises w x [.stored p] (.ofPacket p now)

/-- What a move from `w` to `w'` can make of the slot of a number. -/
inductive Turns (w w' : Window) (x : SeqNum) (old : Slot) : List Note → Slot → Prop
  | same {notes : List Note} (spared : ∀ p ∈ Note.packets notes, x ≠ p.sequence) :
      Turns w w' x old notes old
  | fill (p : Packet) (fromParity : Bool) (pending : old.state.repairPending)
      (here : p.sequence = x) :
      Turns w w' x old [.stored p] (old.fill p.payload p.fragment fromParity)
  | wait {new : Slot} (pending : old.state.repairPending) (waits : old.Waits new) :
      Turns w w' x old [] new
  | keep (p : Packet) (pending : old.state.repairPending) (bare : old.parity = none)
      (member : x ∈ w.groupNumbers p.sequence)
      (alone : ∀ y, y ≠ x → w'.slots.get? y = w.slots.get? y) :
      Turns w w' x old [.kept p]
        (old.keepParity ⟨UInt32.ofNat (w.groupIndex p.sequence), p.payload⟩)
  | lose (s : SeqNum) (ahead : w.Ahead s) (along : w.TakesAlong s x) :
      Turns w w' x old [.gaveUp s] old.lose
  /-- The APDU at the front is broken. -/
  | spoil {slot : Slot} {f : Fragment} (found : w.slots.get? w.commitLead = some slot)
      (held : slot.state = .haveData) (fragment : slot.fragment = some f)
      (here : f.apduFirst = w.commitLead)
      (broken : w.scanApdu w.commitLead f.totalLength.toNat = .lost ∨
        w.scanApdu w.commitLead f.totalLength.toNat = .malformed)
      (along : w.TakesAlong w.commitLead x) : Turns w w' x old [] old.lose
  | orphan {f : Fragment} (front : x = w.commitLead) (held : old.state = .haveData)
      (fragment : old.fragment = some f) (elsewhere : f.apduFirst ≠ w.commitLead) :
      Turns w w' x old [] old.lose
  | commit (m : Message) (held : old.state = .haveData) :
      Turns w w' x old [.delivered m] old.commit
  | retain (needed : w.isRetained x) : Turns w w' x old [] old.retain
  | free (unneeded : w.isRetained x = false) : Turns w w' x old [.freed x] old.dropPayload

variable {w w' : Window} {notes : List Note} {s x : SeqNum} {new : Slot}

theorem get?_giveUpSlot_cases (hs : (w.giveUpSlot s).slots.get? x = some new) :
    ∃ old, w.slots.get? x = some old ∧ (new = old ∨ x = s ∧ new = old.lose) := by
  rw [get?_giveUpSlot] at hs
  split at hs
  next hx =>
    obtain ⟨old, hold, rfl⟩ := Option.map_eq_some_iff.1 hs
    exact ⟨old, hold, .inr ⟨hx, rfl⟩⟩
  · exact ⟨new, hs, .inl rfl⟩

theorem get?_loseApdu_cases (hs : (w.loseApdu s).slots.get? x = some new) :
    ∃ old, w.slots.get? x = some old ∧ (new = old ∨ w.TakesAlong s x ∧ new = old.lose) := by
  cases hf : (w.slots.get? s).bind Slot.fragment with
  | none =>
    rw [loseApdu_of_none hf] at hs
    obtain ⟨old, hold, hnew⟩ := get?_giveUpSlot_cases hs
    exact ⟨old, hold, hnew.imp_right fun ⟨hx, he⟩ => ⟨.inl hx, he⟩⟩
  | some f =>
    obtain ⟨slot, hslot, hfragment⟩ := Option.bind_eq_some_iff.1 hf
    rw [get?_loseApdu_of_some hf] at hs
    split at hs
    next hspread =>
      obtain ⟨given, hgiven, rfl⟩ := Option.map_eq_some_iff.1 hs
      obtain ⟨old, hold, rfl | ⟨hx, rfl⟩⟩ := get?_giveUpSlot_cases hgiven
      · refine ⟨given, hold, ?_⟩
        unfold Slot.loseWith
        split
        next hwith =>
          exact .inr ⟨.inr ⟨slot, f, given, hslot, hfragment, hspread, hold, by simpa using hwith⟩, rfl⟩
        · exact .inl rfl
      · refine ⟨old, hold, .inr ⟨.inl hx, ?_⟩⟩
        rcases old.lose.loseWith_eq f.apduFirst with he | he
        · exact he
        · rw [he, old.lose_lose]
    · obtain ⟨old, hold, hnew⟩ := get?_giveUpSlot_cases hs
      exact ⟨old, hold, hnew.imp_right fun ⟨hx, he⟩ => ⟨.inl hx, he⟩⟩

/-- What counts does not matter for what is given up. -/
theorem takesAlong_of_counters {counters : Counters}
    (h : { w with counters }.TakesAlong s x) : w.TakesAlong s x := by
  have hspread : ∀ first, { w with counters }.spread first s = w.spread first s := by
    intro first
    obtain ⟨c, hc⟩ : ∃ c, { w with counters }.giveUpSlot s = { w.giveUpSlot s with counters := c } := by
      unfold giveUpSlot
      simp only
      split
      · exact ⟨counters, rfl⟩
      · split
        · exact ⟨counters, rfl⟩
        · exact ⟨_, rfl⟩
    rw [spread, spread, spreadEnd, spreadEnd, hc]
    rfl
  obtain hx | ⟨slot, f, other, hslot, hf, hx, hother⟩ := h
  · exact .inl hx
  · exact .inr ⟨slot, f, other, hslot, hf, hspread f.apduFirst ▸ hx, hother⟩

theorem get?_modify_cases (change : Slot → Slot) (hs : (w.modify s change).slots.get? x = some new) :
    ∃ old, w.slots.get? x = some old ∧
      (x ≠ s ∧ new = old ∨ x = s ∧ new = { change old with sequence := old.sequence }) := by
  rw [get?_modify] at hs
  split at hs
  next hx =>
    obtain ⟨old, hold, rfl⟩ := Option.map_eq_some_iff.1 hs
    exact ⟨old, hold, .inr ⟨hx, rfl⟩⟩
  next hx => exact ⟨new, hs, .inl ⟨hx, rfl⟩⟩

theorem get?_of_popTrail? {r slots : SlotRing} {slot : Slot} (hpop : r.popTrail? = some (slot, slots))
    (hs : slots.get? x = some new) : r.get? x = some new := by
  rw [(SlotRing.popTrail?_eq_some hpop).2.2.2.2] at hs
  split at hs
  · cases hs
  · exact hs

/-- How the slot of a number comes to be what it is after a move from `w` to `w'`. -/
def Comes (w w' : Window) (x : SeqNum) (notes : List Note) (new : Slot) : Prop :=
  w.Arises x notes new ∨ ∃ old, w.slots.get? x = some old ∧ Turns w w' x old notes new

/-! ### Slots that are left alone -/

theorem comes_of_spared (hold : w.slots.get? x = some new)
    (spared : ∀ p ∈ Note.packets notes, x ≠ p.sequence) : w.Comes w' x notes new :=
  .inr ⟨new, hold, .same spared⟩

theorem comes_of_get? (hold : w.slots.get? x = some new) (nothing : Note.packets notes = []) :
    w.Comes w' x notes new :=
  comes_of_spared hold fun _ hp => absurd (nothing ▸ hp) List.not_mem_nil

/-! ### Slots that are added -/

theorem comes_addPlaceholder (now : Timestamp) (room : w.slots.size < w.capacity)
    (hs : (addPlaceholder now w w.next).slots.get? x = some new) : w.Comes w' x [] new := by
  rw [show (addPlaceholder now w w.next).slots.get? x = _ from Sound.get?_append rfl room x] at hs
  split at hs
  next hx =>
    obtain rfl := Option.some.inj hs
    subst hx
    exact .inl (.placeholder now _ rfl)
  · exact comes_of_get? hs rfl

theorem comes_addPacket (p : Packet) (now : Timestamp) (next : p.sequence = w.next)
    (room : w.slots.size < w.capacity)
    (hs : (w.append (.ofPacket p now)).slots.get? x = some new) : w.Comes w' x [.stored p] new := by
  rw [Sound.get?_append next room] at hs
  split at hs
  next hx =>
    obtain rfl := Option.some.inj hs
    exact .inl (.packet p now (next.trans hx.symm) hx)
  next hx => exact comes_of_spared hs fun q hq => by rwa [List.mem_singleton.1 hq, next]

/-! ### Slots that are changed -/

/-- A change of one slot makes of it what it makes, and of the others nothing. -/
theorem comes_modify {change : Slot → Slot} (hs : (w.modify s change).slots.get? x = some new)
    (stored : ∀ p ∈ Note.packets notes, p.sequence = s)
    (here : ∀ old, w.slots.get? s = some old →
      Turns w w' s old notes { change old with sequence := old.sequence }) :
    w.Comes w' x notes new := by
  obtain ⟨old, hold, ⟨hx, rfl⟩ | ⟨rfl, rfl⟩⟩ := get?_modify_cases change hs
  · exact comes_of_spared hold fun p hp => stored p hp ▸ hx
  · exact .inr ⟨old, hold, here old hold⟩

/-- A change that keeps the number of a slot is done as it is. -/
theorem comes_modify_of_sequence {change : Slot → Slot}
    (keeps : ∀ old, (change old).sequence = old.sequence)
    (hs : (w.modify s change).slots.get? x = some new)
    (stored : ∀ p ∈ Note.packets notes, p.sequence = s)
    (here : ∀ old, Turns w w' s old notes (change old)) : w.Comes w' x notes new := by
  refine comes_modify hs stored fun old _ => ?_
  have same : { change old with sequence := old.sequence } = change old := by rw [← keeps old]
  exact same.symm ▸ here old

/-- A loss that takes a slot along makes of it a lost one, whatever the reason. -/
theorem comes_loseApdu (hs : (w.loseApdu s).slots.get? x = some new)
    (nothing : Note.packets notes = [])
    (reason : ∀ old, w.TakesAlong s x → Turns w w' x old notes old.lose) : w.Comes w' x notes new := by
  obtain ⟨old, hold, rfl | ⟨along, rfl⟩⟩ := get?_loseApdu_cases hs
  · exact comes_of_get? hold nothing
  · exact .inr ⟨old, hold, reason old along⟩

theorem comes_orphan {slot : Slot} {f : Fragment} (found : w.slots.get? w.commitLead = some slot)
    (held : slot.state = .haveData) (fragment : slot.fragment = some f)
    (elsewhere : f.apduFirst ≠ w.commitLead)
    (hs : (w.giveUpSlot w.commitLead).slots.get? x = some new) : w.Comes w' x [] new := by
  obtain ⟨old, hold, rfl | ⟨rfl, rfl⟩⟩ := get?_giveUpSlot_cases hs
  · exact comes_of_get? hold rfl
  · obtain rfl := Option.some.inj (found.symm.trans hold)
    exact .inr ⟨_, hold, .orphan rfl held fragment elsewhere⟩

/-- What is delivered had its data and was not delivered before. -/
theorem comes_deliver (h : w.Sound) {slot : Slot} {count : Nat} (unread : w.commitTrail ≠ w.commitLead)
    (found : w.slots.get? w.commitTrail = some slot) (held : slot.state ≠ .lost)
    (whole : w.apduCount? w.commitTrail slot = some count)
    (hs : (w.deliver count).1.slots.get? x = some new) :
    w.Comes w' x [.delivered (w.deliver count).2] new := by
  rw [get?_deliver] at hs
  split at hs
  next hx =>
    obtain ⟨old, hold, rfl⟩ := Option.map_eq_some_iff.1 hs
    have hdata := h.hasData_of_mem_run unread found held whole hx hold
    have hinside := (h.front_slice unread found held whole).1
    have hcl := h.commitLead_le
    have hplace := (h.mem_run_commitTrail (by omega)).1 hx
    have undelivered := (h.slots hold).undelivered (Nat.not_lt.2 hplace.1)
    exact .inr ⟨old, hold, .commit _ (SlotState.eq_haveData hdata undelivered)⟩
  · exact comes_of_get? hs rfl

/-! ### Slots behind one that leaves -/

theorem comes_dropTrail (h : w.Sound) (behind : 0 < w.place w.commitTrail)
    (hs : w.dropTrail.slots.get? x = some new) : w.Comes w' x [] new := by
  have hle := h.place_commitTrail_le
  rw [(dropTrail_spec (by omega)).2.2] at hs
  split at hs
  · cases hs
  · exact comes_of_get? hs rfl

theorem comes_evictTrail (front : w.place w.commitTrail = 0) (nonempty : 0 < w.slots.size)
    (hs : w.evictTrail.slots.get? x = some new) : w.Comes w' x [.dropped 1] new := by
  obtain ⟨slot, slots, hpop⟩ := Sound.exists_popTrail? nonempty
  rw [Sound.evictTrail_of_front front hpop] at hs
  exact comes_of_get? (get?_of_popTrail? hpop hs) rfl

/-- Where each slot of a window comes from. -/
theorem Move.slot_cases (hm : w.Move notes w') (h : w.Sound) (hs : w'.slots.get? x = some new) :
    w.Arises x notes new ∨ ∃ old, w.slots.get? x = some old ∧ Turns w w' x old notes new := by
  cases hm with
  | aside _ slots => exact comes_of_get? (slots ▸ hs) rfl
  | define trail => cases (SlotRing.get?_reset w.slots trail x).symm.trans hs
  | addPlaceholder now _ room => exact comes_addPlaceholder now room hs
  | addPacket p now _ next room => exact comes_addPacket p now next room hs
  | fill p source now found pending =>
    refine comes_modify hs (fun q hq => by rw [List.mem_singleton.1 hq]) fun old hold => ?_
    obtain rfl := Option.some.inj (found.symm.trans hold)
    exact .fill p _ pending rfl
  | wait s change found pending waits =>
    refine comes_modify hs nofun fun old hold => ?_
    obtain rfl := Option.some.inj (found.symm.trans hold)
    exact .wait pending
      ⟨waits.pending, waits.onward, waits.fragment, waits.payload, waits.parity, waits.created⟩
  | keep s p found pending bare member =>
    refine comes_modify hs nofun fun old hold => ?_
    obtain rfl := Option.some.inj (found.symm.trans hold)
    exact .keep p pending bare member fun y hy => by rw [get?_modify, if_neg hy]
  | lose s ahead => exact comes_loseApdu hs rfl fun old along => .lose s ahead along
  | collapse found held fragment here broken =>
    exact comes_loseApdu hs rfl fun old along => .spoil found held fragment here (.inl broken) along
  | garble found held fragment here broken =>
    obtain ⟨old, hold, rfl | ⟨along, rfl⟩⟩ :=
      get?_loseApdu_cases (w := { w with counters := w.counters.addMalformed }) hs
    · exact comes_of_get? hold rfl
    · exact .inr ⟨old, hold, .spoil found held fragment here (.inr broken)
        (takesAlong_of_counters along)⟩
  | orphan found held fragment elsewhere => exact comes_orphan found held fragment elsewhere hs
  | reclaim behind => exact comes_dropTrail h behind hs
  | overrun front nonempty => exact comes_evictTrail front nonempty hs
  | skip target _ empty ahead =>
    rw [h.skip_eq empty ahead,
      show (w.slots.reset target).get? x = none from SlotRing.get?_reset ..] at hs
    cases hs
  | deliver count unread found held whole => exact comes_deliver h unread found held whole hs
  | retain s _ needed =>
    exact comes_modify_of_sequence Slot.sequence_retain hs nofun fun _ => .retain needed
  | free s _ unneeded =>
    exact comes_modify_of_sequence Slot.sequence_dropPayload hs nofun fun _ => .free unneeded
  | refuse | regroup | pass | passLost | report => exact comes_of_get? hs rfl

/-- A move keeps the number after the lead or moves it one on, or the window is empty after it. -/
theorem Move.next_cases (hm : w.Move notes w') (h : w.Sound) :
    w'.next = w.next ∨ w'.next = w.next.next ∧ w.slots.size < w.capacity ∨ w'.slots.size = 0 := by
  cases hm.framed with
  | same frame => exact .inl (next_of_frame_eq frame)
  | define => exact .inr (.inr rfl)
  | append slot _ _ next room => exact .inr (.inl ⟨(places_append next room).1, room⟩)
  | reclaim behind =>
    have := h.place_commitTrail_le
    exact .inl (dropTrail_spec (by omega)).2.1
  | overrun front nonempty =>
    obtain ⟨slot, slots, hpop⟩ := Sound.exists_popTrail? nonempty
    rw [Sound.evictTrail_of_front front hpop]
    exact .inl (SlotRing.next_of_popTrail? hpop)
  | skip target _ empty ahead =>
    rw [h.skip_eq empty ahead]
    exact .inr (.inr rfl)
  | deliver count =>
    have hnext := next_of_frame_eq (frame_commitSlots w (w.commitTrail.run count))
    exact .inl hnext
  | regroup | pass | passLost | report => exact .inl rfl

end ReliableMulticast.Window
