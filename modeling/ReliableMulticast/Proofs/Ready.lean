import ReliableMulticast.Proofs.Front

/-!
# What is ready to be read

A message is ready if the window holds it whole and all that comes before it is settled. A stretch
of slots splits into APDUs and losses in one way (`Settled.of_append`), so a front at rest stands
behind all that is ready, and a read that goes to the end hands all of it out
(`AtRest.mem_readReady`).
-/

namespace ReliableMulticast

/-! ### Settled stretches split in one way -/

theorem Fragments.exists_head {first : SeqNum} {total received : Nat} {apdu : List Slot}
    (h : Fragments first total received apdu) :
    ∃ slot rest f, apdu = slot :: rest ∧ slot.fragment = some f ∧ f.totalLength.toNat = total := by
  cases h with
  | last _ continues _ =>
    obtain ⟨f, hf, -, htotal, -⟩ := continues
    exact ⟨_, _, f, rfl, hf, htotal⟩
  | more _ continues _ _ =>
    obtain ⟨f, hf, -, htotal, -⟩ := continues
    exact ⟨_, _, f, rfl, hf, htotal⟩

/-- The APDU that begins a list of slots is known from the slots. -/
theorem WholeApdu.eq_of_append_eq {first : SeqNum} {apdu apdu' rest rest' : List Slot}
    (h : WholeApdu first apdu) (h' : WholeApdu first apdu') (he : apdu ++ rest = apdu' ++ rest') :
    apdu = apdu' ∧ rest = rest' := by
  refine List.append_inj he ?_
  cases h with
  | single held alone =>
    cases h' with
    | single => rfl
    | fragmented fragments =>
      obtain ⟨_, _, f, rfl, hf, -⟩ := fragments.exists_head
      obtain ⟨rfl, -⟩ := List.cons.inj he
      cases alone.symm.trans hf
  | fragmented fragments =>
    obtain ⟨_, _, f, rfl, hf, htotal⟩ := fragments.exists_head
    cases h' with
    | single held alone =>
      obtain ⟨rfl, -⟩ := List.cons.inj he
      cases alone.symm.trans hf
    | fragmented fragments' =>
      obtain ⟨_, _, f', rfl, hf', htotal'⟩ := fragments'.exists_head
      obtain ⟨rfl, -⟩ := List.cons.inj he
      obtain rfl := Option.some.inj (hf.symm.trans hf')
      obtain rfl := htotal.symm.trans htotal'
      have hscan := scanFragments_eq_complete_iff.2 ⟨_, rest, rfl, rfl, fragments⟩
      rw [he, scanFragments_eq_complete_iff.2 ⟨_, rest', rfl, rfl, fragments'⟩] at hscan
      exact (ApduScan.complete.inj hscan).symm

/-- What follows the first part of a settled stretch is settled if that part is. -/
theorem Settled.of_append {s : SeqNum} {slots more : List Slot} (h : Settled s slots)
    (happend : Settled s (slots ++ more)) : Settled (s + slots.length) more := by
  induction h with
  | nil => rwa [List.length_nil, SeqNum.add_zero]
  | lost lost _ ih =>
    rw [List.length_cons, ← SeqNum.next_add]
    exact ih (happend.tail_of_lost lost)
  | @apdu s apdu rest whole _ ih =>
    obtain ⟨head, tail, rfl⟩ := List.exists_cons_of_length_pos whole.length_pos
    have held := whole.hasData head (List.mem_cons_self ..)
    obtain ⟨apdu', later, he, whole', hlater⟩ :=
      Settled.exists_apdu happend (SlotState.hasData_iff.1 held).1
    obtain ⟨rfl, rfl⟩ := whole.eq_of_append_eq whole' ((List.append_assoc ..).symm.trans he)
    rw [List.length_append, ← SeqNum.add_add]
    exact ih hlater

namespace Window

variable {w w' : Window} {m : Message} {n count : Nat} {slot : Slot}

/-! ### What is ready -/

/-- The window holds the message whole, `n` numbers from `commitTrail`, and these are settled. -/
structure ReadyAt (w : Window) (n : Nat) (m : Message) : Prop where
  held : w.HoldsMessage m
  first : m.first = w.commitTrail + n
  inside : w.place w.commitTrail + n ≤ w.slots.size
  settled : Settled w.commitTrail (w.slots.slice w.commitTrail n)

/-- The message can be read: it is whole, and all that comes before it is settled. -/
def Ready (w : Window) (m : Message) : Prop := ∃ n, w.ReadyAt n m

theorem HoldsMessage.packets_pos (h : w.HoldsMessage m) : 0 < m.packets := by
  obtain ⟨apdu, hlength, whole, -⟩ := h
  exact hlength ▸ whole.length_pos

theorem HoldsMessage.exists_first (h : w.HoldsMessage m) :
    ∃ head, w.slots.get? m.first = some head ∧ head.state = .haveData := by
  obtain ⟨apdu, -, whole, hheld, -⟩ := h
  have first := hheld 0 _ (List.getElem?_eq_getElem whole.length_pos)
  rw [SeqNum.add_zero] at first
  exact ⟨_, first⟩

theorem HoldsMessage.slice (h : w.HoldsMessage m) (hs : w.Sound) :
    w.place m.first + m.packets ≤ w.slots.size ∧
      WholeApdu m.first (w.slots.slice m.first m.packets) ∧
      m.payload = joinSlots (w.slots.slice m.first m.packets) := by
  obtain ⟨apdu, hlength, whole, hheld, hpayload⟩ := h
  have hsize := hs.size_le
  have inside : w.place m.first + m.packets ≤ w.slots.size := by
    by_contra hout
    have hpos := whole.length_pos
    have first := hheld 0 _ (List.getElem?_eq_getElem hpos)
    rw [SeqNum.add_zero] at first
    have hfirst := place_lt_of_get? first.1
    obtain ⟨slot, hslot⟩ : ∃ slot, apdu[w.slots.size - w.place m.first]? = some slot :=
      ⟨_, List.getElem?_eq_getElem (by omega)⟩
    have hlast := place_lt_of_get? (hheld _ _ hslot).1
    rw [w.place_add (by omega)] at hlast
    omega
  refine ⟨inside, ?_⟩
  have hslice := SlotRing.length_slice (r := w.slots) (s := m.first) inside
  suffices hsame : w.slots.slice m.first m.packets = apdu by
    rw [hsame]
    exact ⟨whole, hpayload⟩
  refine List.ext_getElem (hslice.trans hlength.symm) fun k hk hk' => ?_
  have hslot := SlotRing.getElem?_slice (r := w.slots) inside (hslice ▸ hk)
  rw [(hheld k _ (List.getElem?_eq_getElem hk')).1, List.getElem?_eq_getElem hk] at hslot
  exact Option.some.inj hslot

/-- A front at rest stands before something that is not settled. -/
theorem AtRest.not_settled (h : w.AtRest) {n : Nat} (pos : 0 < n)
    (inside : w.place w.commitLead + n ≤ w.slots.size) :
    ¬ Settled w.commitLead (w.slots.slice w.commitLead n) := by
  intro hsettled
  obtain ⟨k, rfl⟩ : ∃ k, n = k + 1 := ⟨n - 1, by omega⟩
  have hcontains : w.slots.Contains w.commitLead := contains_iff_place.2 (by omega)
  obtain ⟨slot, found⟩ := SlotRing.exists_get? hcontains
  rw [SlotRing.slice_succ found] at hsettled
  rcases atRest_iff.1 h slot found with hp | ⟨hdata, f, hf, -, hscan⟩
  · rcases hsettled.hasData_or_lost slot (List.mem_cons_self ..) with hd | hl
    · rw [(SlotState.hasData_iff.1 hd).2] at hp
      cases hp
    · rw [hl] at hp
      cases hp
  · obtain ⟨apdu, later, he, whole, -⟩ :=
      Settled.exists_apdu hsettled (by rw [hdata]; exact SlotState.noConfusion)
    have hgap : w.commitLead.gap w.next = k + 1 + (w.slots.size - (w.place w.commitLead + (k + 1))) := by
      rw [gap_eq_place_sub (w := w) (by rw [place_next]; omega), place_next]
      omega
    have hfrom : w.slots.slotsFrom w.commitLead = slot :: (w.slots.slice w.commitLead.next k ++
        w.slots.slice (w.commitLead + (k + 1)) (w.slots.size - (w.place w.commitLead + (k + 1)))) := by
      rw [slotsFrom_eq_slice hcontains, hgap, SlotRing.slice_add, SlotRing.slice_succ found,
        List.cons_append]
    have hcount := apduCount?_eq_some hfrom (by
      rw [← List.cons_append, he, List.append_assoc]
      exact List.prefix_append ..) whole
    rw [apduCount?, hf] at hcount
    simp only [hscan] at hcount
    cases hcount

/-- What is ready lies in the readable part of a window at rest. -/
theorem AtRest.ready_inside (h : w.AtRest) (hs : w.Sound) {n : Nat} (ready : w.ReadyAt n m) :
    n + m.packets ≤ w.commitTrail.gap w.commitLead := by
  obtain ⟨held, hfirst, inside, settled⟩ := ready
  have hsize := hs.size_le
  have hcl := hs.commitLead_le
  have hgap := hs.gap_readable
  obtain ⟨hroom, whole, -⟩ := held.slice hs
  rw [hfirst, w.place_add (by omega)] at hroom
  have hlength : (w.slots.slice w.commitTrail n).length = n := SlotRing.length_slice inside
  have hall : Settled w.commitTrail (w.slots.slice w.commitTrail (n + m.packets)) := by
    rw [SlotRing.slice_add]
    refine settled.append ?_
    rw [hlength, ← hfirst, ← List.append_nil (w.slots.slice m.first m.packets)]
    exact .apdu whole .nil
  by_contra hlt
  -- The stretch reaches beyond the readable part, so the front would stand before a settled one.
  obtain ⟨k, hk⟩ : ∃ k, n + m.packets = w.commitTrail.gap w.commitLead + (k + 1) :=
    ⟨n + m.packets - w.commitTrail.gap w.commitLead - 1, by omega⟩
  rw [hk, SlotRing.slice_add, SeqNum.add_gap] at hall
  have hrest := hs.settled.of_append hall
  rw [hs.length_readable, SeqNum.add_gap] at hrest
  have hle := hs.commitTrail_le
  exact h.not_settled (Nat.succ_pos k) (by omega) hrest

/-! ### Reading what is ready -/

/-- A number begins one message at most. -/
theorem HoldsMessage.eq_of_first_eq {m' : Message} (h : w.HoldsMessage m) (h' : w.HoldsMessage m')
    (hs : w.Sound) (hfirst : m'.first = m.first) : m' = m := by
  obtain ⟨inside, whole, hpayload⟩ := h.slice hs
  obtain ⟨inside', whole', hpayload'⟩ := h'.slice hs
  rw [hfirst] at inside' whole' hpayload'
  have hsplit := w.slots.slice_add m.first m.packets m'.packets
  rw [Nat.add_comm, SlotRing.slice_add] at hsplit
  have hpackets := congrArg List.length (whole'.eq_of_append_eq whole hsplit).1
  rw [SlotRing.length_slice inside, SlotRing.length_slice inside'] at hpackets
  rw [hpackets, ← hpayload] at hpayload'
  cases m
  cases m'
  cases hfirst
  cases hpackets
  cases hpayload'
  rfl

/-- What is delivered first ends where something else begins that is settled up to `n`. -/
theorem ReadyAt.deliver_le (h : w.ReadyAt n m) (hs : w.Sound) (pos : 0 < n)
    (unread : w.commitTrail ≠ w.commitLead) (found : w.slots.get? w.commitTrail = some slot)
    (held : slot.state ≠ .lost) (whole : w.apduCount? w.commitTrail slot = some count) :
    count ≤ n ∧ Settled (w.commitTrail + count) (w.slots.slice (w.commitTrail + count) (n - count)) := by
  obtain ⟨-, hlength, hapdu, -⟩ := hs.front_slice unread found held whole
  obtain ⟨k, rfl⟩ : ∃ k, n = k + 1 := ⟨n - 1, by omega⟩
  have settled := h.settled
  have hcons := SlotRing.slice_succ found k
  obtain ⟨apdu, later, he, hapdu', -⟩ := Settled.exists_apdu (hcons ▸ settled) held
  have hsplit := w.slots.slice_add w.commitTrail (k + 1) count
  rw [Nat.add_comm, SlotRing.slice_add, hcons, he, List.append_assoc] at hsplit
  obtain ⟨rfl, -⟩ := hapdu.eq_of_append_eq hapdu' hsplit
  have hle : count ≤ k + 1 := by
    have hn := SlotRing.length_slice (r := w.slots) (s := w.commitTrail) h.inside
    rw [hcons, he, List.length_append, hlength] at hn
    omega
  have hfirst : Settled w.commitTrail (w.slots.slice w.commitTrail count) := by
    rw [← List.append_nil (w.slots.slice w.commitTrail count)]
    exact .apdu hapdu .nil
  rw [← Nat.add_sub_cancel' hle, SlotRing.slice_add] at settled
  have hrest := hfirst.of_append settled
  rw [hlength] at hrest
  exact ⟨hle, hrest⟩

/-- A message behind the one that is delivered stays ready. -/
theorem ReadyAt.deliver (h : w.ReadyAt n m) (hs : w.Sound) (pos : 0 < n)
    (unread : w.commitTrail ≠ w.commitLead) (found : w.slots.get? w.commitTrail = some slot)
    (held : slot.state ≠ .lost) (whole : w.apduCount? w.commitTrail slot = some count) :
    count ≤ n ∧ (w.deliver count).1.ReadyAt (n - count) m := by
  obtain ⟨hle, hrest⟩ := h.deliver_le hs pos unread found held whole
  have hsize := hs.size_le
  have inside := h.inside
  obtain ⟨hroom, -⟩ := h.held.slice hs
  rw [h.first, w.place_add (by omega)] at hroom
  have hframe := frame_deliver w count
  have hct : (w.deliver count).1.commitTrail = w.commitTrail + count :=
    congrArg Frame.commitTrail hframe
  -- The slots behind the message that is delivered stay as they are.
  have hget : ∀ j, count ≤ j → j < n + m.packets →
      (w.deliver count).1.slots.get? (w.commitTrail + j) = w.slots.get? (w.commitTrail + j) := by
    intro j hj hjlt
    rw [get?_deliver, if_neg]
    rw [hs.mem_run_commitTrail (by omega), w.place_add (by omega)]
    omega
  refine ⟨hle, ?_, ?_, ?_, ?_⟩
  · obtain ⟨apdu, hlength, hwhole, hslots, hpayload⟩ := h.held
    refine ⟨apdu, hlength, hwhole, fun k old hk => ?_, hpayload⟩
    have hklt : k < apdu.length := (List.getElem?_eq_some_iff.1 hk).1
    have hold := hslots k old hk
    rw [h.first, SeqNum.add_add] at hold ⊢
    rwa [hget (n + k) (by omega) (by omega)]
  · rw [hct, SeqNum.add_add, Nat.add_sub_cancel' hle, h.first]
  · have hplace : (w.deliver count).1.place = w.place := by
      funext x
      rw [place, place, show (w.deliver count).1.trail = w.trail from congrArg Frame.trail hframe]
    rw [hct, hplace, show (w.deliver count).1.slots.size = w.slots.size from
      congrArg Frame.size hframe, w.place_add (by omega)]
    omega
  · rw [hct, SlotRing.slice_congr fun k hk => ?_]
    · exact hrest
    · rw [SeqNum.add_add]
      exact hget _ (Nat.le_add_right ..) (by omega)

/-- A message behind a loss that is passed stays ready. -/
theorem ReadyAt.passLost (h : w.ReadyAt n m) (found : w.slots.get? w.commitTrail = some slot)
    (lost : slot.state = .lost) (hs : w.Sound) :
    0 < n ∧ { w with commitTrail := w.commitTrail.next }.ReadyAt (n - 1) m := by
  have hsize := hs.size_le
  have inside := h.inside
  have hfirst := h.first
  have pos : 0 < n := by
    obtain ⟨head, hhead, hdata⟩ := h.held.exists_first
    refine Nat.pos_of_ne_zero ?_
    rintro rfl
    rw [hfirst, SeqNum.add_zero, found] at hhead
    obtain rfl := Option.some.inj hhead
    cases lost.symm.trans hdata
  obtain ⟨k, rfl⟩ : ∃ k, n = k + 1 := ⟨n - 1, by omega⟩
  have settled := h.settled
  rw [SlotRing.slice_succ found] at settled
  refine ⟨pos, h.held, hfirst.trans (SeqNum.next_add ..).symm, ?_, settled.tail_of_lost lost⟩
  change w.place (w.commitTrail + 1) + k ≤ w.slots.size
  rw [w.place_add (by omega)]
  omega

/-- Reading up to the end hands out the messages on the way. -/
theorem ReadyAt.mem_takeReady (h : w.ReadyAt n m) (hs : w.Sound) (length room : Nat)
    (inside : n + m.packets ≤ w.commitTrail.gap w.commitLead)
    (long : w.commitTrail.gap w.commitLead ≤ length) (roomy : w.commitTrail.gap w.commitLead ≤ room) :
    m ∈ (takeReady room length w).2.messages := by
  have hpos := h.held.packets_pos
  induction length generalizing room n w with
  | zero => omega
  | succ length ih =>
    have unread : w.commitTrail ≠ w.commitLead := by
      intro he
      rw [he, SeqNum.gap_self] at inside
      omega
    obtain ⟨room, rfl⟩ : ∃ n, room = n + 1 := ⟨room - 1, by omega⟩
    obtain ⟨slot, found, lost | ⟨held, count, whole⟩⟩ := hs.front_cases unread
    · obtain ⟨hn, hready⟩ := h.passLost found lost hs
      have hrest := gap_passLost unread
      rw [takeReady_of_lost unread found lost]
      exact ih hready (hs.passLost unread found lost) (room + 1) (by simp only; omega)
        (by simp only; omega) (by simp only; omega)
    · rw [takeReady_of_whole unread found held whole]
      rcases Nat.eq_zero_or_pos n with rfl | hn
      · have hmessage := holdsMessage_deliver hs unread found held whole
        have he := hmessage.eq_of_first_eq h.held hs (h.first.trans (SeqNum.add_zero _))
        exact List.mem_cons.2 (.inl he)
      · obtain ⟨hle, hready⟩ := h.deliver hs hn unread found held whole
        obtain ⟨hcpos, hrest⟩ := hs.gap_deliver unread found held whole
        exact List.mem_cons_of_mem _ (ih hready (hs.deliver unread found held whole) room
          (by omega) (by omega) (by omega))

/-- A read from a window at rest hands out all that is ready. -/
theorem AtRest.mem_readReady (h : w.AtRest) (hs : w.Sound) (ready : w.Ready m) {count : Nat}
    (enough : w.slots.size ≤ count) : m ∈ (w.readReady count).2.messages := by
  obtain ⟨n, hready⟩ := ready
  have hcl := hs.commitLead_le
  have hgap := hs.gap_readable
  have reported : { w with unreportedLosses := 0 }.ReadyAt n m :=
    ⟨hready.held, hready.first, hready.inside, hready.settled⟩
  exact reported.mem_takeReady hs.report _ count (h.ready_inside hs hready) (Nat.le_refl _)
    (show w.commitTrail.gap w.commitLead ≤ count by omega)

end Window

end ReliableMulticast
