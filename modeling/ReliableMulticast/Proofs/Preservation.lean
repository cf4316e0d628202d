import ReliableMulticast.Proofs.Move

/-!
# Every move keeps a window sound

One lemma for each kind of move; `Moves.sound` puts them together. The moves that deliver rest on
`Sound.front`: at the front of a part that is not read up stands a slot given up or a whole APDU,
and then the count of its packets is the one that the scan finds.
-/

namespace ReliableMulticast

/-! ### The front of a settled stretch -/

theorem Settled.tail_of_lost {s : SeqNum} {slot : Slot} {rest : List Slot}
    (h : Settled s (slot :: rest)) (hl : slot.state = .lost) : Settled s.next rest := by
  generalize he : slot :: rest = slots at h
  cases h with
  | nil => cases he
  | lost _ later =>
    obtain ⟨rfl, rfl⟩ := List.cons.inj he
    exact later
  | @apdu _ apdu _ whole _ =>
    cases apdu with
    | nil => exact absurd whole.length_pos (Nat.lt_irrefl 0)
    | cons head _ =>
      obtain ⟨rfl, -⟩ := List.cons.inj he
      exact absurd hl (SlotState.hasData_iff.1 (whole.hasData _ (List.mem_cons_self ..))).1

theorem Settled.exists_apdu {s : SeqNum} {slot : Slot} {rest : List Slot}
    (h : Settled s (slot :: rest)) (hl : slot.state ≠ .lost) :
    ∃ apdu later, slot :: rest = apdu ++ later ∧ WholeApdu s apdu ∧
      Settled (s + apdu.length) later := by
  generalize he : slot :: rest = slots at h
  cases h with
  | nil => cases he
  | lost lost _ =>
    obtain ⟨rfl, -⟩ := List.cons.inj he
    exact absurd lost hl
  | @apdu _ apdu later whole settled => exact ⟨apdu, later, rfl, whole, settled⟩

namespace Window

variable {w : Window}

theorem scanApdu_eq_complete_iff {first : SeqNum} {total n : Nat} :
    w.scanApdu first total = .complete n ↔
      ∃ apdu rest, w.slots.slotsFrom first = apdu ++ rest ∧ apdu.length = n ∧
        Fragments first total 0 apdu :=
  scanFragments_eq_complete_iff

/-- The count of an APDU's packets is the length of the whole APDU that begins there. -/
theorem apduCount?_eq_some {first : SeqNum} {slot : Slot} {apdu rest : List Slot}
    (hslots : w.slots.slotsFrom first = slot :: rest) (happend : apdu <+: slot :: rest)
    (whole : WholeApdu first apdu) : w.apduCount? first slot = some apdu.length := by
  obtain ⟨later, hlater⟩ := happend
  cases whole with
  | single held alone =>
    obtain ⟨rfl, -⟩ := List.cons.inj hlater
    rw [apduCount?, alone]
    rfl
  | @fragmented total _ fragments =>
    obtain ⟨f, hf, htotal⟩ : ∃ f, slot.fragment = some f ∧ f.totalLength.toNat = total := by
      cases fragments with
      | last _ continues _ =>
        obtain ⟨rfl, -⟩ := List.cons.inj hlater
        obtain ⟨f, hf, -, ht, -⟩ := continues
        exact ⟨f, hf, ht⟩
      | more _ continues _ _ =>
        obtain ⟨rfl, -⟩ := List.cons.inj hlater
        obtain ⟨f, hf, -, ht, -⟩ := continues
        exact ⟨f, hf, ht⟩
    have hscan : w.scanApdu first f.totalLength.toNat = .complete apdu.length := by
      rw [scanApdu_eq_complete_iff, htotal]
      exact ⟨apdu, later, by rw [hslots, hlater], rfl, fragments⟩
    rw [apduCount?, hf]
    simp only [hscan]

theorem slotsFrom_eq_slice {s : SeqNum} (h : w.slots.Contains s) :
    w.slots.slotsFrom s = w.slots.slice s (s.gap w.next) :=
  if_pos h

namespace Sound

theorem place_lt_of_unread (h : w.Sound) (hne : w.commitTrail ≠ w.commitLead) :
    w.place w.commitTrail < w.place w.commitLead :=
  Nat.lt_of_le_of_ne h.commitTrail_le fun he => hne (place_inj he)

theorem place_commitTrail_add (h : w.Sound) {k : Nat}
    (hk : k < w.commitTrail.gap w.commitLead) :
    w.place (w.commitTrail + k) = w.place w.commitTrail + k := by
  have := h.commitLead_le
  have := h.size_le
  have := h.gap_readable
  exact w.place_add (by omega)

/-- The slots ahead of `commitTrail` begin with the readable part. -/
theorem slice_next_eq (h : w.Sound) :
    w.slots.slice w.commitTrail (w.commitTrail.gap w.next) =
      w.readable ++ w.slots.slice w.commitLead (w.commitLead.gap w.next) := by
  have hct := h.commitTrail_le
  have hcl := h.commitLead_le
  have hadd : w.commitTrail.gap w.next =
      w.commitTrail.gap w.commitLead + w.commitLead.gap w.next := by
    rw [h.gap_next, h.gap_readable, gap_eq_place_sub (w.place_next ▸ hcl), place_next]
    omega
  rw [hadd, SlotRing.slice_add, SeqNum.add_gap]
  rfl

/-- A slot that is next to be read and was not given up begins a whole APDU of the readable part,
whose packets the window counts right. -/
theorem front (h : w.Sound) (hne : w.commitTrail ≠ w.commitLead) {slot : Slot}
    (hs : w.slots.get? w.commitTrail = some slot) (hl : slot.state ≠ .lost) :
    ∃ apdu later, w.readable = apdu ++ later ∧ WholeApdu w.commitTrail apdu ∧
      Settled (w.commitTrail + apdu.length) later ∧
      w.apduCount? w.commitTrail slot = some apdu.length := by
  have hlt := h.place_lt_of_unread hne
  have hcontains : w.slots.Contains w.commitTrail :=
    contains_iff_place.2 (Nat.lt_of_lt_of_le hlt h.commitLead_le)
  have hpos : ∃ n, w.commitTrail.gap w.commitLead = n + 1 :=
    ⟨w.commitTrail.gap w.commitLead - 1, by rw [h.gap_readable]; omega⟩
  obtain ⟨n, hn⟩ := hpos
  have hcons : w.readable = slot :: w.slots.slice w.commitTrail.next n := by
    rw [readable, hn, SlotRing.slice_succ hs]
  obtain ⟨apdu, later, he, whole, settled⟩ := Settled.exists_apdu (hcons ▸ h.settled) hl
  refine ⟨apdu, later, hcons.trans he, whole, settled, ?_⟩
  have hfrom : w.slots.slotsFrom w.commitTrail = slot :: (w.slots.slice w.commitTrail.next n ++
      w.slots.slice w.commitLead (w.commitLead.gap w.next)) := by
    rw [slotsFrom_eq_slice hcontains, h.slice_next_eq, hcons, List.cons_append]
  refine apduCount?_eq_some hfrom ?_ whole
  rw [← List.cons_append, he, List.append_assoc]
  exact List.prefix_append _ _

/-! ### Changing slots in place -/

theorem of_slots_eq (h : w.Sound) {w' : Window} (hf : w'.frame = w.frame)
    (hslots : w'.slots = w.slots) : w'.Sound := by
  refine h.of_frame_eq hf (fun hs => h.slots (hslots ▸ hs)) ?_
  rw [hslots]
  exact h.settled

/-- Outside the readable part slots may change as they like if they still fit their places. -/
theorem change_outside (h : w.Sound) {w' : Window} (hf : w'.frame = w.frame)
    (hslots : ∀ {x slot}, w'.slots.get? x = some slot →
      slot.Fits (w.place x < w.place w.commitTrail))
    (hsame : ∀ x, w.place w.commitTrail ≤ w.place x → w.place x < w.place w.commitLead →
      w'.slots.get? x = w.slots.get? x) : w'.Sound := by
  refine h.of_frame_eq hf hslots ?_
  rw [SlotRing.slice_congr fun k hk => ?_]
  · exact h.settled
  · have hplace := h.place_commitTrail_add hk
    rw [h.gap_readable] at hk
    exact hsame _ (by omega) (by omega)

/-- A change of one slot outside the readable part. -/
theorem modify_outside (h : w.Sound) {w' : Window} {s : SeqNum} {change : Slot → Slot}
    (hf : w'.frame = w.frame) (hslots : w'.slots = w.slots.modify s change)
    (outside : w.place s < w.place w.commitTrail ∨ w.place w.commitLead ≤ w.place s)
    (fits : ∀ slot, w.slots.get? s = some slot →
      (change slot).Fits (w.place s < w.place w.commitTrail)) : w'.Sound := by
  refine h.change_outside hf ?_ fun x hx hlt => ?_
  · intro x slot hs
    rw [hslots, SlotRing.get?_modify] at hs
    split at hs
    next he =>
      subst he
      obtain ⟨old, hold, rfl⟩ := Option.map_eq_some_iff.1 hs
      exact ⟨(fits old hold).settled, (fits old hold).undelivered, (fits old hold).timer⟩
    · exact h.slots hs
  · rw [hslots, SlotRing.get?_modify, if_neg]
    rintro rfl
    omega

theorem fill (h : w.Sound) {slot : Slot} {p : Packet} (source : Option RepairSource)
    (now : Timestamp) (found : w.slots.get? p.sequence = some slot)
    (pending : slot.state.repairPending) : (w.fillSlot slot p source now).Sound := by
  refine h.modify_outside (frame_modify w p.sequence _) rfl
    (.inr (h.commitLead_le_of_pending found pending)) fun old hold => ?_
  obtain rfl := Option.some.inj (found.symm.trans hold)
  exact .of_ahead ((h.slots found).not_behind pending) rfl fun ht => absurd rfl ht

theorem wait (h : w.Sound) {s : SeqNum} {slot : Slot} {change : Slot → Slot}
    (found : w.slots.get? s = some slot) (pending : slot.state.repairPending)
    (waits : (change slot).state.repairPending) : (w.modify s change).Sound := by
  refine h.modify_outside (frame_modify w s change) rfl
    (.inr (h.commitLead_le_of_pending found pending)) fun old hold => ?_
  obtain rfl := Option.some.inj (found.symm.trans hold)
  exact .of_ahead ((h.slots found).not_behind pending)
    (SlotState.not_delivered_of_repairPending waits) fun _ => waits

theorem giveUp_outside (h : w.Sound) {s : SeqNum}
    (outside : w.place s < w.place w.commitTrail ∨ w.place w.commitLead ≤ w.place s) :
    (w.giveUpSlot s).Sound := by
  refine h.change_outside (frame_giveUpSlot w s) ?_ fun x hx hlt => ?_
  · intro x slot hs
    rw [get?_giveUpSlot] at hs
    split at hs
    · obtain ⟨old, hold, rfl⟩ := Option.map_eq_some_iff.1 hs
      exact (h.slots hold).lose
    · exact h.slots hs
  · rw [get?_giveUpSlot, if_neg]
    rintro rfl
    omega

theorem retain (h : w.Sound) {s : SeqNum} (behind : w.place s < w.place w.commitTrail) :
    (w.modify s Slot.retain).Sound := by
  refine h.modify_outside (frame_modify w s _) rfl (.inl behind) fun slot hs => ?_
  rcases slot.retain_cases with he | ⟨hc, he⟩ <;> rw [he]
  · exact h.slots hs
  · refine ⟨fun _ => .inl rfl, fun hb => absurd behind hb, fun ht => ?_⟩
    have := (h.slots hs).timer ht
    rw [hc] at this
    cases this

theorem free (h : w.Sound) {s : SeqNum} (behind : w.place s < w.place w.commitTrail) :
    (w.modify s Slot.dropPayload).Sound := by
  refine h.modify_outside (frame_modify w s _) rfl (.inl behind) fun slot hs => ?_
  rcases slot.dropPayload_cases with he | ⟨-, he⟩ <;> rw [he]
  · exact h.slots hs
  · exact ⟨(h.slots hs).settled, (h.slots hs).undelivered, (h.slots hs).timer⟩

/-! ### Moving the ends of the window -/

theorem regroup (h : w.Sound) {size shift : Nat} (accepted : w.acceptsGroupSize size shift) :
    { w with groupSize := size }.Sound := by
  simp only [acceptsGroupSize, Bool.and_eq_true, decide_eq_true_eq] at accepted
  obtain ⟨⟨⟨-, hsize⟩, hmax⟩, hcap⟩ := accepted
  have hgroup : IsGroupSize size := by
    refine ⟨?_, hmax⟩
    rw [hsize, Nat.one_shiftLeft, Nat.log2_two_pow, Nat.one_shiftLeft]
  exact ⟨h.capacity, hgroup, hcap, h.commitTrail_le, h.commitLead_le, h.slots, h.settled, h.blank⟩

theorem define (h : w.Sound) (trail : SeqNum) : (w.define trail).Sound where
  capacity := h.capacity
  groupSize := h.groupSize
  groupSize_le := h.groupSize_le
  commitTrail_le := Nat.le_refl _
  commitLead_le := Nat.le_of_eq trail.gap_self
  slots := by
    intro x slot hs
    rw [show (w.define trail).slots.get? x = none from SlotRing.get?_reset ..] at hs
    cases hs
  settled := by
    rw [show (w.define trail).readable = (w.define trail).slots.slice trail (trail.gap trail)
      from rfl, SeqNum.gap_self]
    exact .nil
  blank := fun hb => by cases hb

theorem slots_append {slot : Slot} (next : slot.sequence = w.next)
    (room : w.slots.size < w.capacity) :
    (w.append slot).slots = w.slots.grow slot next room :=
  SlotRing.append_eq next room

theorem get?_append {slot : Slot} (next : slot.sequence = w.next)
    (room : w.slots.size < w.capacity) (x : SeqNum) :
    (w.append slot).slots.get? x = if x = w.next then some slot else w.slots.get? x := by
  rw [slots_append next room]
  exact SlotRing.get?_grow ..

theorem append (h : w.Sound) {slot : Slot} (defined : w.isDefined) (next : slot.sequence = w.next)
    (room : w.slots.size < w.capacity) (fits : slot.Fits False) : (w.append slot).Sound := by
  have hslots := slots_append next room
  have hplace : (w.append slot).place = w.place := by
    funext x
    rw [place, place, Window.trail, hslots]
    rfl
  have hsize : (w.append slot).slots.size = w.slots.size + 1 := by
    rw [hslots]
    rfl
  have hget := get?_append next room
  have hcl := h.commitLead_le
  refine ⟨?_, h.groupSize, ?_, ?_, ?_, ?_, ?_, ?_⟩
  · rw [Window.capacity, hslots]
    exact h.capacity
  · rw [Window.capacity, hslots]
    exact h.groupSize_le
  · rw [hplace]
    exact h.commitTrail_le
  · rw [hplace, hsize]
    exact Nat.le_succ_of_le hcl
  · intro x old hs
    rw [hget] at hs
    rw [hplace]
    split at hs
    next hx =>
      obtain rfl := Option.some.inj hs
      have hnot : ¬ w.place x < w.place w.commitTrail := by
        have := h.place_commitTrail_le
        rw [hx, place_next]
        omega
      exact ⟨fun hb => absurd hb hnot, fun _ => fits.undelivered id, fits.timer⟩
    · exact h.slots hs
  · rw [show (w.append slot).readable =
      (w.append slot).slots.slice w.commitTrail (w.commitTrail.gap w.commitLead) from rfl,
      SlotRing.slice_congr fun k hk => ?_]
    · exact h.settled
    · rw [hget, if_neg]
      intro he
      have hk' := h.place_commitTrail_add hk
      rw [he, place_next] at hk'
      rw [h.gap_readable] at hk
      omega
  · intro hb
    rw [show (w.append slot).isDefined = w.isDefined from rfl, defined] at hb
    cases hb

/-! ### The trail moves on -/

/-- The trail one step on: every place is one less. -/
theorem place_of_trail_next {w' : Window} (ht : w'.trail = w.trail.next) {x : SeqNum}
    (hx : 0 < w.place x) : w'.place x + 1 = w.place x := by
  have hgap : w.trail.next.gap x = w.trail.gap x - 1 := SeqNum.gap_next hx
  unfold place at hx ⊢
  rw [ht, hgap]
  omega

theorem reclaim (h : w.Sound) (behind : 0 < w.place w.commitTrail) : w.dropTrail.Sound := by
  have hct := h.place_commitTrail_le
  have hle := h.commitTrail_le
  have hcl := h.commitLead_le
  unfold dropTrail
  split
  next hpop =>
    have := SlotRing.popTrail?_eq_none_iff.1 hpop
    omega
  next slot slots hpop =>
    obtain ⟨-, hcap, htrail, hsize, hget⟩ := SlotRing.popTrail?_eq_some hpop
    have hplace : ∀ {x}, 0 < w.place x → { w with slots }.place x + 1 = w.place x :=
      fun hx => place_of_trail_next (show { w with slots }.trail = w.trail.next from htrail) hx
    have hct' := hplace behind
    have hcl' := hplace (Nat.lt_of_lt_of_le behind hle)
    refine ⟨hcap.trans h.capacity, h.groupSize, Nat.le_trans h.groupSize_le (Nat.le_of_eq hcap.symm),
      ?_, ?_, ?_, ?_, ?_⟩
    · change { w with slots }.place w.commitTrail ≤ { w with slots }.place w.commitLead
      omega
    · change { w with slots }.place w.commitLead ≤ slots.size
      omega
    · intro x old hs
      change slots.get? x = some old at hs
      rw [hget] at hs
      split at hs
      · cases hs
      next hx =>
        have hpos : 0 < w.place x := Nat.pos_of_ne_zero fun hz =>
          hx (SeqNum.gap_eq_zero_iff.1 hz).symm
        have hx' := hplace hpos
        have hiff : { w with slots }.place x < { w with slots }.place w.commitTrail ↔
            w.place x < w.place w.commitTrail := by omega
        exact (propext hiff).symm ▸ h.slots hs
    · change Settled w.commitTrail (slots.slice w.commitTrail (w.commitTrail.gap w.commitLead))
      rw [SlotRing.slice_congr fun k hk => ?_]
      · exact h.settled
      · rw [hget, if_neg]
        intro he
        have hk' := h.place_commitTrail_add hk
        rw [he, show w.place w.slots.trail = 0 from w.place_trail] at hk'
        omega
    · intro hb
      have := (h.blank hb).2.1
      omega

/-- What is left of a window whose front slot was undelivered and left. -/
theorem evictTrail_of_front {slot : Slot} {slots : SlotRing} (front : w.place w.commitTrail = 0)
    (hpop : w.slots.popTrail? = some (slot, slots)) :
    w.evictTrail =
      { w with
        slots := slots
        queues := w.queues.unqueue slot
        commitTrail := slots.trail
        commitLead := slots.trail
        counters := w.counters.addLosses (if slot.state = .lost then 0 else 1)
        unreportedLosses := min (w.unreportedLosses + 1) maxReported } := by
  have hnot : ¬ w.trail.Before w.commitTrail := by
    rw [SeqNum.gap_eq_zero_iff.1 front, SeqNum.before_iff, SeqNum.gap_self]
    omega
  unfold evictTrail
  rw [hpop]
  simp only [if_neg hnot]
  rfl

theorem overrun (h : w.Sound) (front : w.place w.commitTrail = 0)
    (nonempty : 0 < w.slots.size) : w.evictTrail.Sound := by
  cases hpop : w.slots.popTrail? with
  | none =>
    have := SlotRing.popTrail?_eq_none_iff.1 hpop
    omega
  | some popped =>
    obtain ⟨slot, slots⟩ := popped
    obtain ⟨-, hcap, htrail, hsize, hget⟩ := SlotRing.popTrail?_eq_some hpop
    rw [evictTrail_of_front front hpop]
    refine ⟨hcap.trans h.capacity, h.groupSize, Nat.le_trans h.groupSize_le (Nat.le_of_eq hcap.symm),
      Nat.le_refl _, ?_, ?_, ?_, ?_⟩
    · exact Nat.le_trans (Nat.le_of_eq (SeqNum.gap_self slots.trail)) (Nat.zero_le _)
    · intro x old hs
      change slots.get? x = some old at hs
      rw [hget] at hs
      split at hs
      · cases hs
      · have hfits := h.slots hs
        rw [front] at hfits
        have hnot : ¬ slots.trail.gap x < slots.trail.gap slots.trail := by
          rw [SeqNum.gap_self]
          omega
        exact ⟨fun hb => absurd hb hnot, fun _ => hfits.undelivered (Nat.not_lt_zero _),
          hfits.timer⟩
    · change Settled slots.trail (slots.slice slots.trail (slots.trail.gap slots.trail))
      rw [SeqNum.gap_self]
      exact .nil
    · intro hb
      have := (h.blank hb).1
      omega

/-- What is left of an empty window that jumped ahead. -/
theorem skip_eq (h : w.Sound) (empty : w.slots.size = 0) {target : SeqNum}
    (ahead : w.trail.Before target) :
    (w.skipTo target).clampCommit =
      { w with
        slots := w.slots.reset target
        counters := w.counters.addLosses (w.trail.gap target)
        unreportedLosses := min (w.unreportedLosses + w.trail.gap target) maxReported
        commitTrail := target
        commitLead := target } := by
  have hct : w.commitTrail = w.trail := by
    have := h.place_commitTrail_le
    exact (SeqNum.gap_eq_zero_iff.1 (show w.trail.gap w.commitTrail = 0 by
      unfold place at this; omega)).symm
  have hcl : w.commitLead = w.trail := by
    have := h.commitLead_le
    exact (SeqNum.gap_eq_zero_iff.1 (show w.trail.gap w.commitLead = 0 by
      unfold place at this; omega)).symm
  have hskip : w.skipTo target = { w with
      slots := w.slots.reset target
      counters := w.counters.addLosses (w.trail.gap target)
      unreportedLosses := min (w.unreportedLosses + w.trail.gap target) maxReported } :=
    if_pos ahead
  have htrail : (w.skipTo target).trail = target := by
    rw [hskip]
    rfl
  rw [clampCommit, htrail, hskip]
  simp only [hct, hcl, if_pos ahead]

theorem skip (h : w.Sound) (defined : w.isDefined) (empty : w.slots.size = 0) {target : SeqNum}
    (ahead : w.trail.Before target) : (w.skipTo target).clampCommit.Sound := by
  rw [h.skip_eq empty ahead]
  refine ⟨h.capacity, h.groupSize, h.groupSize_le, Nat.le_refl _, ?_, ?_, ?_, ?_⟩
  · exact Nat.le_of_eq (SeqNum.gap_self target)
  · intro x slot hs
    rw [show (w.slots.reset target).get? x = none from SlotRing.get?_reset ..] at hs
    cases hs
  · change Settled target ((w.slots.reset target).slice target (target.gap target))
    rw [SeqNum.gap_self]
    exact .nil
  · intro hb
    rw [show w.isDefined = false from hb] at defined
    cases defined

/-! ### The readable part -/

theorem pass (h : w.Sound) {count : Nat} (inside : w.place w.commitLead + count ≤ w.slots.size)
    (settled : Settled w.commitLead (w.slots.slice w.commitLead count)) :
    (w.passFront count).Sound := by
  have hsize := h.size_le
  have hle := h.commitTrail_le
  have hplace : w.place (w.commitLead + count) = w.place w.commitLead + count :=
    w.place_add (by omega)
  have hgap : w.commitTrail.gap (w.commitLead + count) =
      w.commitTrail.gap w.commitLead + count := by
    rw [gap_eq_place_sub (w := w) (by omega), hplace, h.gap_readable]
    omega
  refine ⟨h.capacity, h.groupSize, h.groupSize_le, ?_, ?_, h.slots, ?_, h.blank⟩
  · change w.place w.commitTrail ≤ w.place (w.commitLead + count)
    omega
  · change w.place (w.commitLead + count) ≤ w.slots.size
    omega
  · change Settled w.commitTrail
      (w.slots.slice w.commitTrail (w.commitTrail.gap (w.commitLead + count)))
    rw [hgap, SlotRing.slice_add, SeqNum.add_gap]
    refine Settled.append h.settled ?_
    have hlen := h.length_readable
    rw [readable] at hlen
    rwa [hlen, SeqNum.add_gap]

theorem passLost (h : w.Sound) {slot : Slot} (unread : w.commitTrail ≠ w.commitLead)
    (found : w.slots.get? w.commitTrail = some slot) (lost : slot.state = .lost) :
    { w with commitTrail := w.commitTrail.next }.Sound := by
  have hlt := h.place_lt_of_unread unread
  have hcl := h.commitLead_le
  have hsize := h.size_le
  have hplace : w.place w.commitTrail.next = w.place w.commitTrail + 1 :=
    w.place_add (by omega)
  have hgap : w.commitTrail.gap w.commitLead = w.commitTrail.next.gap w.commitLead + 1 := by
    rw [h.gap_readable, gap_eq_place_sub (w := w) (by omega), hplace]
    omega
  refine ⟨h.capacity, h.groupSize, h.groupSize_le, ?_, hcl, ?_, ?_, ?_⟩
  · change w.place w.commitTrail.next ≤ w.place w.commitLead
    omega
  · intro x old hs
    change old.Fits (w.place x < w.place w.commitTrail.next)
    have hfits := h.slots hs
    by_cases hx : x = w.commitTrail
    · obtain rfl : slot = old := Option.some.inj (found.symm.trans (hx ▸ hs))
      refine ⟨fun _ => .inr lost, fun hb => ?_, hfits.timer⟩
      rw [hx] at hb
      omega
    · have hne : w.place x ≠ w.place w.commitTrail := fun he => hx (place_inj he)
      have hiff : w.place x < w.place w.commitTrail.next ↔
          w.place x < w.place w.commitTrail := by omega
      exact (propext hiff).symm ▸ hfits
  · have hread := h.settled
    rw [readable, hgap, SlotRing.slice_succ found] at hread
    exact hread.tail_of_lost lost
  · intro hb
    have hct := h.place_commitTrail_le
    have := (h.blank hb).1
    omega

/-- The slots of a delivered APDU. -/
theorem mem_run_commitTrail (h : w.Sound) {count : Nat} {x : SeqNum}
    (inside : w.place w.commitTrail + count ≤ w.slots.size) :
    x ∈ w.commitTrail.run count ↔
      w.place w.commitTrail ≤ w.place x ∧ w.place x < w.place w.commitTrail + count := by
  have hsize := h.size_le
  rw [SeqNum.mem_run]
  constructor
  · rintro ⟨k, hk, rfl⟩
    have := w.place_add (x := w.commitTrail) (n := k) (by omega)
    omega
  · rintro ⟨hle, hlt⟩
    refine ⟨w.place x - w.place w.commitTrail, by omega, ?_⟩
    rw [← gap_eq_place_sub hle, SeqNum.add_gap]

/-- A delivered APDU moves `commitTrail` over its slots, which were all held. -/
theorem of_deliver (h : w.Sound) {w' : Window} {count : Nat}
    (hf : w'.frame = { w.frame with commitTrail := w.commitTrail + count })
    (hget : ∀ x, w'.slots.get? x =
      if x ∈ w.commitTrail.run count then (w.slots.get? x).map Slot.commit else w.slots.get? x)
    (hplace : w.place (w.commitTrail + count) = w.place w.commitTrail + count)
    (inside : w.place w.commitTrail + count ≤ w.place w.commitLead)
    (held : ∀ slot ∈ w.slots.slice w.commitTrail count, slot.state.hasData)
    (later : Settled (w.commitTrail + count) (w.slots.slice (w.commitTrail + count)
      ((w.commitTrail + count).gap w.commitLead))) : w'.Sound := by
  have hsize := h.size_le
  have hcl := h.commitLead_le
  have hmem : ∀ {x}, x ∈ w.commitTrail.run count ↔
      w.place w.commitTrail ≤ w.place x ∧ w.place x < w.place w.commitTrail + count :=
    h.mem_run_commitTrail (by omega)
  have htrail : w'.trail = w.trail := congrArg Frame.trail hf
  have hplaces : w'.place = w.place := by
    funext x
    rw [place, place, htrail]
  have hct : w'.commitTrail = w.commitTrail + count := congrArg Frame.commitTrail hf
  have hlead : w'.commitLead = w.commitLead := congrArg Frame.commitLead hf
  refine ⟨?_, ?_, ?_, ?_, ?_, ?_, ?_, ?_⟩
  · rw [show w'.capacity = w.capacity from congrArg Frame.capacity hf,
      show w'.config = w.config from congrArg Frame.config hf, h.capacity]
  · rw [show w'.groupSize = w.groupSize from congrArg Frame.groupSize hf]
    exact h.groupSize
  · rw [show w'.groupSize = w.groupSize from congrArg Frame.groupSize hf,
      show w'.capacity = w.capacity from congrArg Frame.capacity hf]
    exact h.groupSize_le
  · rw [hplaces, hct, hlead, hplace]
    exact inside
  · rw [hplaces, hlead, show w'.slots.size = w.slots.size from congrArg Frame.size hf]
    exact hcl
  · intro x slot hs
    rw [hget] at hs
    rw [hplaces, hct, hplace]
    split at hs
    next hx =>
      obtain ⟨old, hold, rfl⟩ := Option.map_eq_some_iff.1 hs
      obtain ⟨hle, hlt⟩ := hmem.1 hx
      have hdata : old.state.hasData := by
        refine held old (SlotRing.mem_slice.2 ⟨w.place x - w.place w.commitTrail, by omega, ?_⟩)
        rw [← gap_eq_place_sub hle, SeqNum.add_gap, hold]
      refine ⟨fun _ => .inl rfl, fun hb => absurd hlt hb, fun ht => ?_⟩
      have := (h.slots hold).timer ht
      rw [(SlotState.hasData_iff.1 hdata).2] at this
      cases this
    next hx =>
      have hiff : w.place x < w.place w.commitTrail + count ↔
          w.place x < w.place w.commitTrail := by
        have := mt hmem.2 hx
        omega
      exact (propext hiff).symm ▸ h.slots hs
  · rw [readable, hct, hlead, SlotRing.slice_congr fun k hk => ?_]
    · exact later
    · rw [hget, if_neg]
      rw [hmem, SeqNum.add_add]
      rw [gap_eq_place_sub (w := w) (by omega), hplace] at hk
      have := w.place_add (x := w.commitTrail) (n := count + k) (by omega)
      omega
  · intro hb
    rw [show w'.isDefined = w.isDefined from congrArg Frame.isDefined hf] at hb
    obtain ⟨hzero, -, hunreported⟩ := h.blank hb
    have hz : w.place (w.commitTrail + count) = 0 := by omega
    rw [hplaces, hct, show w'.slots.size = w.slots.size from congrArg Frame.size hf,
      show w'.unreportedLosses = w.unreportedLosses from congrArg Frame.unreportedLosses hf]
    exact ⟨hzero, hz, hunreported⟩

/-- What is next to be read, in the slots of the window: an APDU of so many packets as the window
counts, and behind it the rest of the readable part. -/
theorem front_slice (h : w.Sound) {slot : Slot} {count : Nat} (unread : w.commitTrail ≠ w.commitLead)
    (found : w.slots.get? w.commitTrail = some slot) (held : slot.state ≠ .lost)
    (whole : w.apduCount? w.commitTrail slot = some count) :
    w.place w.commitTrail + count ≤ w.place w.commitLead ∧
      (w.slots.slice w.commitTrail count).length = count ∧
      WholeApdu w.commitTrail (w.slots.slice w.commitTrail count) ∧
      Settled (w.commitTrail + count) (w.slots.slice (w.commitTrail + count)
        ((w.commitTrail + count).gap w.commitLead)) := by
  obtain ⟨apdu, later, hread, hapdu, hlater, hcount⟩ := h.front unread found held
  obtain rfl : apdu.length = count := Option.some.inj (hcount.symm.trans whole)
  have hlen : apdu.length + later.length = w.commitTrail.gap w.commitLead := by
    rw [← List.length_append, ← hread, h.length_readable]
  have hsize := h.size_le
  have hle := h.commitTrail_le
  have hcl := h.commitLead_le
  have hgap := h.gap_readable
  have hplace : w.place (w.commitTrail + apdu.length) = w.place w.commitTrail + apdu.length :=
    w.place_add (by omega)
  have hfirst : (w.slots.slice w.commitTrail apdu.length).length = apdu.length := by
    refine SlotRing.length_slice ?_
    change w.place w.commitTrail + _ ≤ _
    omega
  have hrest : (w.commitTrail + apdu.length).gap w.commitLead = later.length := by
    rw [gap_eq_place_sub (w := w) (by omega), hplace]
    omega
  have hsplit : w.slots.slice w.commitTrail apdu.length ++
      w.slots.slice (w.commitTrail + apdu.length) later.length = apdu ++ later := by
    rw [← SlotRing.slice_add, hlen, ← hread]
    rfl
  obtain ⟨hsame, hsame'⟩ := List.append_inj hsplit hfirst
  rw [hrest, hsame, hsame']
  exact ⟨by omega, rfl, hapdu, hlater⟩

/-- All that is next to be read is held. -/
theorem hasData_of_mem_run (h : w.Sound) {slot old : Slot} {count : Nat} {x : SeqNum}
    (unread : w.commitTrail ≠ w.commitLead) (found : w.slots.get? w.commitTrail = some slot)
    (held : slot.state ≠ .lost) (whole : w.apduCount? w.commitTrail slot = some count)
    (hx : x ∈ w.commitTrail.run count) (hs : w.slots.get? x = some old) : old.state.hasData := by
  obtain ⟨-, -, hapdu, -⟩ := h.front_slice unread found held whole
  obtain ⟨k, hk, rfl⟩ := SeqNum.mem_run.1 hx
  exact hapdu.hasData old (SlotRing.mem_slice.2 ⟨k, hk, hs⟩)

theorem deliver (h : w.Sound) {slot : Slot} {count : Nat} (unread : w.commitTrail ≠ w.commitLead)
    (found : w.slots.get? w.commitTrail = some slot) (held : slot.state ≠ .lost)
    (whole : w.apduCount? w.commitTrail slot = some count) : (w.deliver count).1.Sound := by
  obtain ⟨hinside, -, hapdu, hlater⟩ := h.front_slice unread found held whole
  have hsize := h.size_le
  have hcl := h.commitLead_le
  exact h.of_deliver (frame_deliver w _) (get?_deliver w _) (w.place_add (by omega)) hinside
    hapdu.hasData hlater

theorem report (h : w.Sound) : { w with unreportedLosses := 0 }.Sound :=
  ⟨h.capacity, h.groupSize, h.groupSize_le, h.commitTrail_le, h.commitLead_le, h.slots, h.settled,
    fun hb => ⟨(h.blank hb).1, (h.blank hb).2.1, rfl⟩⟩

theorem ahead_of_commitLead (h : w.Sound) {slot : Slot} (found : w.slots.get? w.commitLead = some slot) :
    w.Ahead w.commitLead :=
  h.ahead_iff.2 ⟨h.commitTrail_le, place_lt_of_get? found⟩

end Sound

/-- A slot that is taken in stands at the number after the lead. -/
theorem places_append {slot : Slot} (next : slot.sequence = w.next)
    (room : w.slots.size < w.capacity) :
    (w.append slot).next = w.next.next ∧ (w.append slot).slots.size = w.slots.size + 1 ∧
      (w.append slot).capacity = w.capacity := by
  have hslots := Sound.slots_append next room
  refine ⟨?_, ?_, ?_⟩
  · rw [Window.next, hslots]
    exact (SeqNum.add_next w.trail w.slots.size).symm
  · rw [hslots]
    rfl
  · rw [capacity, hslots]
    rfl

/-! ### All moves -/

theorem Move.sound {w' : Window} {notes : List Note} (hm : w.Move notes w') (h : w.Sound) :
    w'.Sound := by
  cases hm with
  | aside frame slots => exact h.of_slots_eq frame slots
  | refuse => exact h.of_slots_eq rfl rfl
  | regroup size shift accepted _ => exact h.regroup accepted
  | define trail _ => exact h.define trail
  | addPlaceholder now defined room =>
    exact h.append defined rfl room (.of_ahead id rfl fun _ => rfl)
  | addPacket p now defined next room =>
    exact h.append defined next room (.of_ahead id rfl fun ht => absurd rfl ht)
  | fill p source now found pending => exact h.fill source now found pending
  | wait s change found pending waits => exact h.wait found pending (waits.pending pending)
  | keep s p found pending => exact h.wait found pending rfl
  | lose s ahead => exact h.loseApdu ahead
  | collapse found => exact h.loseApdu (h.ahead_of_commitLead found)
  | garble found =>
    have counted : { w with counters := w.counters.addMalformed }.Sound := h.of_slots_eq rfl rfl
    exact counted.loseApdu (h.ahead_of_commitLead found)
  | orphan => exact h.giveUp_outside (.inr (Nat.le_refl _))
  | reclaim behind => exact h.reclaim behind
  | overrun front nonempty => exact h.overrun front nonempty
  | skip target defined empty ahead => exact h.skip defined empty ahead
  | pass count inside settled => exact h.pass inside settled
  | passLost unread found lost => exact h.passLost unread found lost
  | deliver count unread found held whole => exact h.deliver unread found held whole
  | report => exact h.report
  | retain s behind _ => exact h.retain behind
  | free s behind _ => exact h.free behind

theorem Moves.sound {w w' : Window} {notes : List Note} (hm : w.Moves notes w') (h : w.Sound) :
    w'.Sound := by
  induction hm with
  | done => exact h
  | next first _ ih => exact ih (first.sound h)

theorem Moves.capacity_eq {w w' : Window} {notes : List Note} (hm : w.Moves notes w')
    (h : w.Sound) : w'.capacity = w.capacity := by
  rw [(hm.sound h).capacity, h.capacity, hm.keeps.config]

theorem get?_create (tsi : Tsi) (config : ValidConfig) (x : SeqNum) :
    (create tsi config).slots.get? x = none := SlotRing.get?_emptyAt ..

/-- A new window is sound. -/
theorem sound_create (tsi : Tsi) (config : ValidConfig) : (create tsi config).Sound where
  capacity := rfl
  groupSize := config.2.groupSize
  groupSize_le := config.2.groupSize_le
  commitTrail_le := Nat.le_refl _
  commitLead_le := Nat.le_of_eq (SeqNum.gap_self 0)
  slots := by
    intro x slot hs
    rw [get?_create] at hs
    cases hs
  settled := by
    rw [readable, show (create tsi config).commitTrail.gap (create tsi config).commitLead = 0
      from SeqNum.gap_self 0]
    exact .nil
  blank := fun _ => ⟨rfl, SeqNum.gap_self 0, rfl⟩

end Window

end ReliableMulticast
