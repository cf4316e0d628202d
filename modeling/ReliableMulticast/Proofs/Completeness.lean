import ReliableMulticast.Proofs.Rebuilding
import ReliableMulticast.Proofs.Reception

/-!
# A stream is delivered whole

If all packets of a stream arrive, in whatever order and however often, and nothing is lost, then
exactly the messages of the stream are handed out, in order (`delivered_eq_messages`). What was
handed out is always the beginning of the stream (`Follows.begins`), as each message is one of
the stream and begins where those before it end. And it is the whole stream once there is nothing to
read: a next APDU would be held whole at the front, which is not at rest then
(`not_atRest_of_apdu`).
-/

namespace ReliableMulticast

/-! ### Messages of a stream -/

/-- The messages that stand in line span no numbers twice. -/
theorem spanned_take_add_le {messages : List Message} {i j : Nat} {m : Message}
    (hi : messages[i]? = some m) (h : i < j) :
    spanned (messages.take i) + m.packets ≤ spanned (messages.take j) := by
  have hsum := sum_take_add_le (l := (messages.take j).map Message.packets) (i := i)
    (n := m.packets) (by rw [List.getElem?_map, List.getElem?_take_of_lt h, hi]; rfl)
  rwa [← List.map_take, List.take_take, Nat.min_eq_left (Nat.le_of_lt h)] at hsum

theorem spanned_messagesFrom (s : SeqNum) (apdus : List (List Packet)) :
    spanned (messagesFrom s apdus) = apdus.flatten.length := by
  induction apdus generalizing s with
  | nil => rfl
  | cons apdu rest ih =>
    rw [List.flatten_cons, List.length_append, ← ih (s + apdu.length)]
    exact List.sum_cons

/-- A message of a stream is one of its APDUs and begins where the messages before it end. -/
theorem Tiles.of_message {s : SeqNum} {apdus : List (List Packet)} (h : Tiles s apdus) {i : Nat}
    {m : Message} (hi : (messagesFrom s apdus)[i]? = some m) :
    m.first = s + spanned ((messagesFrom s apdus).take i) ∧
      ∃ apdu ∈ apdus, IsApdu m.first apdu ∧ m.packets = apdu.length := by
  induction h generalizing i with
  | nil => cases hi
  | @cons s apdu rest whole _ ih =>
    cases i with
    | zero =>
      obtain rfl := Option.some.inj hi
      exact ⟨(SeqNum.add_zero s).symm, apdu, List.mem_cons_self .., whole, rfl⟩
    | succ i =>
      obtain ⟨hfirst, apdu', hin, hwhole⟩ := ih hi
      refine ⟨?_, apdu', List.mem_cons_of_mem apdu hin, hwhole⟩
      rw [hfirst, SeqNum.add_add, messagesFrom, List.take_succ_cons]
      rfl

namespace Stream

variable {stream : Stream}

theorem spanned_messages (stream : Stream) : spanned stream.messages = stream.packets.length :=
  spanned_messagesFrom ..

theorem of_message {i : Nat} {m : Message} (hi : stream.messages[i]? = some m) :
    m.first = stream.start + spanned (stream.messages.take i) ∧
      ∃ apdu ∈ stream.apdus, IsApdu m.first apdu ∧ m.packets = apdu.length :=
  stream.tiles.of_message hi

theorem packets_pos {i : Nat} {m : Message} (hi : stream.messages[i]? = some m) : 0 < m.packets := by
  obtain ⟨-, apdu, -, whole, hlength⟩ := of_message hi
  exact hlength ▸ whole.length_pos

theorem spanned_take_le (stream : Stream) (i : Nat) :
    spanned (stream.messages.take i) ≤ stream.packets.length := by
  have hsplit := spanned_append (stream.messages.take i) (stream.messages.drop i)
  rw [List.take_append_drop, spanned_messages] at hsplit
  omega

/-- Messages of a stream of which each begins where those before it end are the first messages of the
stream. -/
theorem prefix_messages {ms : List Message} (short : stream.packets.length < 4294967296)
    (h : ∀ (i : Nat) (m : Message), ms[i]? = some m →
      m ∈ stream.messages ∧ m.first = stream.start + spanned (ms.take i)) : ms <+: stream.messages := by
  induction ms using List.reverseRecOn with
  | nil => exact List.nil_prefix ..
  | append_singleton ms m ih =>
    have hbegins : ms <+: stream.messages := by
      refine ih fun i x hx => ?_
      have hi : i < ms.length := (List.getElem?_eq_some_iff.1 hx).1
      have := h i x (by rwa [List.getElem?_append_left hi])
      rwa [List.take_append_of_le_length (Nat.le_of_lt hi)] at this
    obtain ⟨hm, hfirst⟩ := h ms.length m (by rw [List.getElem?_append_right (Nat.le_refl _)]; simp)
    rw [List.take_left] at hfirst
    obtain ⟨j, hj⟩ := List.getElem?_of_mem hm
    -- The message stands where as many numbers are before it, and that is after `ms`.
    have hms : ms = stream.messages.take ms.length := List.prefix_iff_eq_take.1 hbegins
    have suits : spanned (stream.messages.take ms.length) = spanned (stream.messages.take j) := by
      have hle := stream.spanned_take_le ms.length
      have hle' := stream.spanned_take_le j
      have heq := hfirst.symm.trans (of_message hj).1
      rw [hms] at heq
      exact (SeqNum.add_inj (Nat.lt_of_le_of_lt hle short) (Nat.lt_of_le_of_lt hle' short)).1 heq
    have hpos := stream.packets_pos hj
    have hlength : ms.length ≤ stream.messages.length := hbegins.length_le
    obtain rfl : j = ms.length := by
      rcases Nat.lt_trichotomy j ms.length with hlt | he | hlt
      · have := spanned_take_add_le hj hlt
        omega
      · exact he
      · have hjlt : j < stream.messages.length := (List.getElem?_eq_some_iff.1 hj).1
        obtain ⟨m', hm'⟩ : ∃ m', stream.messages[ms.length]? = some m' :=
          ⟨_, List.getElem?_eq_getElem (Nat.lt_trans hlt hjlt)⟩
        have := spanned_take_add_le hm' hlt
        have := stream.packets_pos hm'
        omega
    rw [List.prefix_iff_eq_take, List.length_append, List.length_singleton, List.take_add_one, hj,
      ← hms]
    rfl

end Stream

namespace Window

variable {w : Window} {stream : Stream} {ops : List Op}

/-! ### The front -/

/-- The packets are held for delivery from number `s` on. -/
def HoldsAll (w : Window) (s : SeqNum) (packets : List Packet) : Prop :=
  ∀ (i : Nat) (p : Packet), packets[i]? = some p →
    ∃ slot, w.slots.get? (s + i) = some slot ∧ slot.state = .haveData ∧ slot.Carries p

theorem HoldsAll.inside {s : SeqNum} {packets : List Packet} (h : w.HoldsAll s packets)
    (hs : w.Sound) (pos : 0 < packets.length) (room : packets.length ≤ w.capacity) :
    w.place s + packets.length ≤ w.slots.size := by
  have hcap := hs.capacity_le
  have hsize := hs.size_le
  obtain ⟨_, first, -⟩ := h 0 _ (List.getElem?_eq_getElem pos)
  obtain ⟨_, last, -⟩ := h (packets.length - 1) _ (List.getElem?_eq_getElem (by omega))
  rw [SeqNum.add_zero] at first
  have hfirst := place_lt_of_get? first
  have hlast := place_lt_of_get? last
  rw [w.place_add (by omega)] at hlast
  omega

/-- The slots of held packets carry them, one by one. -/
theorem HoldsAll.slice {s : SeqNum} {packets : List Packet} (h : w.HoldsAll s packets)
    (inside : w.place s + packets.length ≤ w.slots.size) :
    List.Forall₂ Slot.Carries (w.slots.slice s packets.length) packets ∧
      ∀ slot ∈ w.slots.slice s packets.length, slot.state.hasData := by
  constructor
  · refine List.forall₂_iff_get.2 ⟨SlotRing.length_slice inside, fun i hi hi' => ?_⟩
    obtain ⟨slot, found, -, hcarries⟩ := h i _ (List.getElem?_eq_getElem hi')
    have hslot := SlotRing.getElem?_slice inside hi'
    rw [found, List.getElem?_eq_getElem hi] at hslot
    rw [List.get_eq_getElem, Option.some.inj hslot]
    exact hcarries
  · intro slot hmem
    obtain ⟨k, hk, hslot⟩ := SlotRing.mem_slice.1 hmem
    obtain ⟨slot', found, hheld, -⟩ := h k _ (List.getElem?_eq_getElem hk)
    obtain rfl := Option.some.inj (hslot.symm.trans found)
    rw [hheld]
    rfl

/-- The scan finds a fragmented APDU complete if all its packets are held. -/
theorem HoldsAll.scanApdu_eq {s : SeqNum} {apdu : List Packet} (h : w.HoldsAll s apdu)
    (pos : 0 < apdu.length) (inside : w.place s + apdu.length ≤ w.slots.size)
    (fragment : ∀ (i : Nat) (p : Packet), apdu[i]? = some p → 0 < p.size ∧
      ∃ f, p.fragment = some f ∧ f.apduFirst = s ∧
        f.totalLength.toNat = (apdu.map Packet.size).sum ∧
        f.offset.toNat = ((apdu.take i).map Packet.size).sum) :
    w.scanApdu s (apdu.map Packet.size).sum = .complete apdu.length := by
  have hlength := SlotRing.length_slice (r := w.slots) (s := s) inside
  have hgap : s.gap w.next = w.slots.size - w.place s := by
    rw [gap_eq_place_sub (w.place_next ▸ Nat.le_of_add_right_le inside), place_next]
  obtain ⟨hcarried, hdata⟩ := h.slice inside
  rw [scanApdu, slotsFrom_eq_slice (contains_iff_place.2 (by omega)), scanFragments_eq_complete_iff]
  refine ⟨_, w.slots.slice (s + apdu.length) (s.gap w.next - apdu.length), ?_, hlength, ?_⟩
  · rw [← SlotRing.slice_add, Nat.add_sub_cancel' (by omega)]
  · refine Fragments.of_carried hcarried ?_ hdata (Nat.zero_add _) ?_
    · rwa [← List.length_pos_iff, hlength]
    · simpa only [Nat.zero_add] using fragment

/-- A front with a whole APDU is not at rest. -/
theorem not_atRest_of_apdu (hs : w.Sound) {apdu : List Packet} (whole : IsApdu w.commitLead apdu)
    (room : apdu.length ≤ w.capacity) (held : w.HoldsAll w.commitLead apdu) : ¬ w.AtRest := by
  intro hrest
  obtain ⟨head, hhead⟩ : ∃ head, apdu[0]? = some head :=
    ⟨_, List.getElem?_eq_getElem whole.length_pos⟩
  obtain ⟨slot, found, hheld, hcarries⟩ := held 0 head hhead
  rw [SeqNum.add_zero] at found
  -- The slot at the front has data, so what rest leaves open is that its APDU misses a packet.
  obtain ⟨-, f, hf, -, hincomplete⟩ := (atRest_iff.1 hrest slot found).resolve_left
    (by rw [hheld]; exact Bool.false_ne_true)
  rw [hcarries.fragment] at hf
  cases whole with
  | single _ alone =>
    obtain rfl := Option.some.inj hhead
    rw [alone] at hf
    cases hf
  | fragmented nonempty fragment =>
    obtain ⟨-, -, g, hg, -, htotal, -⟩ := fragment 0 head hhead
    obtain rfl := Option.some.inj (hf.symm.trans hg)
    have hpos := List.length_pos_iff.2 nonempty
    rw [htotal, held.scanApdu_eq hpos (held.inside hs hpos room) fun i p hi => (fragment i p hi).2]
      at hincomplete
    cases hincomplete

/-! ### Following a stream -/

/-- A window with a place at the start of a stream took in packets of it, and nothing was lost. Then
no packet was counted malformed, the reader passed exactly the messages handed out, and each packet
that was taken in is held or was read. -/
structure Follows (w : Window) (stream : Stream) (ops : List Op) : Prop where
  placed : w.Placed stream.start
  suits : stream.Suits w.tsi w.config
  brings : ∀ op ∈ ops, stream.Brings op
  sound : (w.run ops).Sound
  live : (w.run ops).isGone = false
  keeps : w.Keeps (w.run ops)
  losses : (w.run ops).counters.losses = 0
  malformed : (w.run ops).counters.malformed = 0
  lossless : w.Lossless stream.start ops
  marked : (w.run ops).Marked stream.packets
  atRest : (w.run ops).AtRest
  arrived : ∀ op ∈ ops, ∀ p, op.packet? = some p →
    p.sequence ∈ stream.start.run (spanned (w.delivered ops)) ∨ (w.run ops).Holds p.sequence

/-- Where nothing is repaired, all that is accepted is sent. -/
theorem mem_of_accepted (brings : ∀ op ∈ ops, stream.Brings op) {p : Packet}
    (hp : p ∈ w.accepted (parts ops)) : p ∈ stream.packets := by
  have feeds : ∀ op ∈ ops, stream.Feeds op := by
    intro op hop
    have hbrings := brings op hop
    cases op with
    | push | pushRepair => exact hbrings
    | repair => cases hbrings
    | _ => trivial
  rcases mem_packets_or_rebuilt feeds hp with hmem | ⟨-, _, -, -, -, _, _, _, hrepair, -⟩
  · exact hmem
  · cases brings _ hrepair

/-- What was handed out is the beginning of the stream. -/
theorem Follows.begins (h : w.Follows stream ops) : w.delivered ops <+: stream.messages := by
  have hlen := h.suits.length_lt
  refine stream.prefix_messages (by omega) fun i m hi => ⟨?_, (h.lossless.first hi).1⟩
  obtain ⟨before, ps, ⟨after, rfl⟩, hreassembles, hps⟩ := exists_packets_of_mem_delivered
    h.placed.sound (holdsLatest_of_empty (get?_of_empty h.placed.empty) [])
    (List.mem_of_getElem? hi)
  exact stream.mem_messages hreassembles fun p hp =>
    mem_of_accepted (fun op hop => h.brings op (List.mem_append_left after hop)) (hps p hp)

/-- The reader has passed no more numbers than the stream has. -/
theorem Follows.spanned_le (h : w.Follows stream ops) :
    spanned (w.delivered ops) ≤ stream.packets.length := by
  rw [List.prefix_iff_eq_take.1 h.begins]
  exact stream.spanned_take_le _

/-- A number of the stream that the window is done with was read. -/
theorem Lossless.mem_run_of_passed {start : SeqNum} (h : w.Lossless start ops) {i : Nat}
    (hi : i < 2147483648) (read : spanned (w.delivered ops) < 2147483648)
    (passed : (w.run ops).Passed (start + i)) : start + i ∈ start.run (spanned (w.delivered ops)) := by
  have hplace := h.place_le
  have htrail := SeqNum.eq_add_sub
    (((w.run ops).trail_add_place _).trans h.commitTrail) hplace
  refine SeqNum.mem_run.2 ⟨i, ?_, rfl⟩
  rcases passed with before | behind
  · rw [htrail, SeqNum.before_add_iff start (by omega) (by omega)] at before
    omega
  · have hsum := (w.run ops).trail_add_place (start + i)
    rw [htrail, SeqNum.add_add, SeqNum.add_inj (by omega) (by omega)] at hsum
    omega

theorem Follows.suits_run (h : w.Follows stream ops) :
    stream.Suits (w.run ops).tsi (w.run ops).config := by
  rw [h.keeps.tsi, h.keeps.config]
  exact h.suits

/-- A packet that is taken in without losses is held, unless its number was read before. -/
theorem Follows.arrives {op : Op} {p : Packet} (h : w.Follows stream ops)
    (brings : stream.Brings op) (hop : op.packet? = some p)
    (unharmed : (w.run (ops ++ [op])).counters.losses = 0) :
    p.sequence ∈ stream.start.run (spanned (w.delivered ops)) ∨
      (w.run (ops ++ [op])).Holds p.sequence := by
  have hp := brings.mem hop
  obtain ⟨i, hi⟩ := List.getElem?_of_mem hp
  have hlt : i < stream.packets.length := (List.getElem?_eq_some_iff.1 hi).1
  have hlen := h.suits.length_lt
  have hspanned := h.spanned_le
  obtain ⟨source, now, hstep⟩ := exists_step_eq hop
  simp only [run_concat, hstep _ h.live (h.suits_run.session p hp)] at unharmed ⊢
  rcases holds_of_acceptData h.sound h.lossless.defined h.lossless.lostAhead
    (isMalformed_eq_false h.suits_run.fits h.sound h.marked hp) source now with hheld | hpassed | hlost
  · exact .inr hheld
  · rw [stream.tiles.sequence hi] at hpassed ⊢
    exact .inl (h.lossless.mem_run_of_passed (by omega) (by omega) hpassed)
  · omega

/-- A step in which nothing is lost. -/
theorem Follows.concat {op : Op} (h : w.Follows stream ops) (brings : stream.Brings op)
    (unharmed : (w.run (ops ++ [op])).counters.losses = 0) : w.Follows stream (ops ++ [op]) := by
  obtain ⟨part, stays⟩ := brings.isPart
  obtain ⟨notes, hmoves, htells⟩ := step_spec_of_ne h.sound h.live part stays
  obtain ⟨hrest, hclean⟩ := step_of_brings h.sound h.live h.suits_run h.marked brings h.atRest
  rw [← run_concat] at hmoves hrest hclean
  have hlosses := h.losses
  obtain ⟨hlossless, hadvance⟩ := h.lossless.concat h.sound hmoves htells (by omega)
  -- The stretch that was read grows by what this step hands out.
  have hrun : ∀ {x}, x ∈ stream.start.run (spanned (w.delivered (ops ++ [op]))) ↔
      x ∈ stream.start.run (spanned (w.delivered ops)) ∨
        x ∈ (w.run ops).commitTrail.run (Note.advance notes) := by
    intro x
    rw [hadvance, SeqNum.run_add, List.mem_append, h.lossless.commitTrail]
  refine ⟨h.placed, h.suits, ?_, hmoves.sound h.sound, hmoves.keeps.isGone.trans h.live,
    h.keeps.trans hmoves.keeps, unharmed, ?_, hlossless, hmoves.marked h.sound h.marked ?_, hrest, ?_⟩
  · exact List.forall_mem_append.2 ⟨h.brings, List.forall_mem_singleton.2 brings⟩
  · rcases hclean with hgrown | ⟨-, hmalformed⟩
    · omega
    · exact hmalformed.trans h.malformed
  · intro p hp
    rw [htells.packets] at hp
    exact brings.mem (Op.packet?_of_mem_accepted hp)
  · intro x hx p hop
    rcases List.mem_append.1 hx with hx | hx
    · rcases h.arrived x hx p hop with hread | hheld
      · exact .inl (hrun.2 (.inl hread))
      · rcases hmoves.holds h.sound h.lossless.defined hheld with hheld | hread | hlost
        · exact .inr hheld
        · exact .inl (hrun.2 (.inr hread))
        · omega
    · obtain rfl := List.mem_singleton.1 hx
      exact (h.arrives brings hop unharmed).imp_left fun hread => hrun.2 (.inl hread)

theorem Placed.follows_nil (placed : w.Placed stream.start) (suits : stream.Suits w.tsi w.config) :
    w.Follows stream [] where
  placed := placed
  suits := suits
  brings := fun op hop => by cases hop
  sound := placed.sound
  live := placed.live
  keeps := ⟨rfl, rfl, rfl, id⟩
  losses := placed.losses
  malformed := placed.malformed
  lossless := placed.lossless_nil
  marked := marked_of_empty placed.empty _
  atRest := atRest_of_empty placed.empty
  arrived := fun op hop => by cases hop

theorem moves_run_of_brings (hs : w.Sound) (live : w.isGone = false)
    (brings : ∀ op ∈ ops, stream.Brings op) : ∃ notes, w.Moves notes (w.run ops) := by
  induction ops generalizing w with
  | nil => exact ⟨[], .done w⟩
  | cons op ops ih =>
    obtain ⟨part, stays⟩ := (brings op (List.mem_cons_self ..)).isPart
    obtain ⟨_, first, -⟩ := step_spec_of_ne hs live part stays
    obtain ⟨_, later⟩ := ih (first.sound hs) (first.keeps.isGone.trans live)
      fun x hx => brings x (List.mem_cons_of_mem op hx)
    exact ⟨_, first.trans later⟩

/-- A history without losses follows the stream. -/
theorem follows_run (placed : w.Placed stream.start) (suits : stream.Suits w.tsi w.config)
    (brings : ∀ op ∈ ops, stream.Brings op) (unharmed : (w.run ops).counters.losses = 0) :
    w.Follows stream ops := by
  induction ops using List.reverseRecOn with
  | nil => exact placed.follows_nil suits
  | append_singleton ops op ih =>
    obtain ⟨earlier, last⟩ := List.forall_mem_append.1 brings
    obtain ⟨_, before⟩ := moves_run_of_brings placed.sound placed.live earlier
    obtain ⟨_, after⟩ := moves_run_of_brings (before.sound placed.sound)
      (before.keeps.isGone.trans placed.live) last
    have hle := after.losses_le (before.sound placed.sound)
    rw [← run_append, unharmed] at hle
    exact (ih earlier (Nat.le_zero.1 hle)).concat (last op (List.mem_singleton_self op)) unharmed

/-- What follows a stream can be read without losses. -/
theorem Follows.reads (h : w.Follows stream ops) (counts : List Nat) :
    w.Follows stream (ops ++ counts.map .read) := by
  refine follows_run h.placed h.suits (List.forall_mem_append.2 ⟨h.brings, ?_⟩) ?_
  · exact List.forall_mem_map.2 fun _ _ => trivial
  · rw [run_append, h.atRest.losses_reads h.sound h.live, h.losses]

/-- Unless the whole stream was handed out, the reader stands where an APDU of it starts. -/
theorem Follows.exists_next (h : w.Follows stream ops) (hne : w.delivered ops ≠ stream.messages) :
    ∃ apdu ∈ stream.apdus, IsApdu (w.run ops).commitTrail apdu ∧
      spanned (w.delivered ops) + apdu.length ≤ stream.packets.length := by
  have hbegins := h.begins
  have htake := List.prefix_iff_eq_take.1 hbegins
  have hlt := Nat.lt_of_le_of_ne hbegins.length_le fun he => hne (hbegins.eq_of_length he)
  obtain ⟨m, hm⟩ : ∃ m, stream.messages[(w.delivered ops).length]? = some m :=
    ⟨_, List.getElem?_eq_getElem hlt⟩
  obtain ⟨hfirst, apdu, hin, whole, hlength⟩ := Stream.of_message hm
  rw [← htake, ← h.lossless.commitTrail] at hfirst
  refine ⟨apdu, hin, hfirst ▸ whole, ?_⟩
  have hnext := spanned_take_add_le hm (Nat.lt_add_one _)
  have hle := stream.spanned_take_le ((w.delivered ops).length + 1)
  rw [← htake, hlength] at hnext
  omega

/-- If all packets of the stream were taken in, those of the next APDU are held. -/
theorem Follows.holdsAll (h : w.Follows stream ops)
    (all : ∀ p ∈ stream.packets, ∃ op ∈ ops, op.packet? = some p) {apdu : List Packet}
    (hin : apdu ∈ stream.apdus) (whole : IsApdu (w.run ops).commitTrail apdu)
    (within : spanned (w.delivered ops) + apdu.length ≤ stream.packets.length) :
    (w.run ops).HoldsAll (w.run ops).commitTrail apdu := by
  intro i p hi
  have hlen := h.suits.length_lt
  have hlt : i < apdu.length := (List.getElem?_eq_some_iff.1 hi).1
  have hp : p ∈ stream.packets := List.mem_flatten.2 ⟨apdu, hin, List.mem_of_getElem? hi⟩
  obtain ⟨op, hop, hpacket⟩ := all p hp
  rcases h.arrived op hop p hpacket with hread | ⟨slot, found, hheld⟩
  · obtain ⟨k, hk, he⟩ := SeqNum.mem_run.1 hread
    rw [whole.sequence hi, h.lossless.commitTrail, SeqNum.add_add,
      SeqNum.add_inj (by omega) (by omega)] at he
    omega
  · rw [whole.sequence hi] at found
    -- What is held is what was taken in, and the stream has one packet for each number.
    have hlatest := (holdsLatest_of_empty (get?_of_empty h.placed.empty) []).run h.placed.sound h.live
    obtain ⟨q, hq, hcarries⟩ := hlatest _ slot found hheld
    obtain ⟨haccepted, hsequence⟩ := mem_of_latest hq
    obtain rfl : q = p := stream.eq_of_sequence_eq (mem_of_accepted h.brings haccepted) hp
      (hsequence.trans (whole.sequence hi).symm)
    exact ⟨slot, found, hheld, hcarries⟩

/-- If all packets of the stream were taken in and there is nothing to read, all of the stream was
handed out. -/
theorem Follows.delivered_eq (h : w.Follows stream ops)
    (all : ∀ p ∈ stream.packets, ∃ op ∈ ops, op.packet? = some p)
    (idle : (w.run ops).hasPending = false) : w.delivered ops = stream.messages := by
  have hfront : (w.run ops).commitTrail = (w.run ops).commitLead := by
    have hzero := (hasPending_eq_false_iff h.live).1 idle
    unfold toRead at hzero
    exact SeqNum.gap_eq_zero_iff.1 (by omega)
  have hcapacity : (w.run ops).capacity = w.config.1.capacity.toNat := by
    rw [h.sound.capacity, h.keeps.config]
  by_contra hne
  obtain ⟨apdu, hin, whole, within⟩ := h.exists_next hne
  have held := h.holdsAll all hin whole within
  rw [hfront] at whole held
  exact not_atRest_of_apdu h.sound whole (hcapacity ▸ h.suits.apdu_le apdu hin) held h.atRest

/-! ### New windows -/

/-- A data packet gives a window its place and is taken in there. -/
theorem acceptData_define {p : Packet} (undefined : w.isDefined = false)
    (wellFormed : w.isMalformed p = false)
    (wellFormed' : (w.define p.sequence).isMalformed p = false) (source : Option RepairSource)
    (now : Timestamp) :
    w.acceptData p source now = (w.define p.sequence).acceptData p source now := by
  have hplaced : w.ensureDefined p.sequence = w.define p.sequence := by
    rw [ensureDefined, undefined, if_neg Bool.false_ne_true]
  have hstays : (w.define p.sequence).ensureDefined p.sequence = w.define p.sequence := if_pos rfl
  rw [acceptData, acceptData, wellFormed, wellFormed', if_neg Bool.false_ne_true,
    if_neg Bool.false_ne_true, hplaced, hstays]

theorem step_create {tsi : Tsi} {config : ValidConfig} (suits : stream.Suits tsi config) {op : Op}
    {p : Packet} (hop : op.packet? = some p) (hp : p ∈ stream.packets) :
    (create tsi config).step op = ((create tsi config).define p.sequence).step op := by
  have placed := placed_define tsi config p.sequence
  have wellFormed : (create tsi config).isMalformed p = false :=
    isMalformed_eq_false suits.fits (sound_create tsi config) (marked_of_empty rfl _) hp
  have wellFormed' : ((create tsi config).define p.sequence).isMalformed p = false :=
    isMalformed_eq_false suits.fits placed.sound (marked_of_empty placed.empty _) hp
  obtain ⟨source, now, hstep⟩ := exists_step_eq hop
  rw [hstep _ rfl (suits.session p hp), hstep _ rfl (suits.session p hp),
    acceptData_define rfl wellFormed wellFormed']

/-- Windows that agree on the first operation agree on the whole history. -/
theorem run_cons_congr {w' : Window} {op : Op} (h : w.step op = w'.step op) (ops : List Op) :
    w.run (op :: ops) = w'.run (op :: ops) ∧ w.record (op :: ops) = w'.record (op :: ops) := by
  constructor
  · exact congrArg (fun r : Window × Answer => r.1.run ops) h
  · rw [record, h]
    rfl

/-- Arrival order does not matter. If a new window takes in the packets of a stream, beginning with
the first one and then in any order and however often, and nothing is lost, then the messages that
are read until there is nothing to read are those of the stream, no losses are told, and no packet
was counted malformed. So many reads that all is read there are always. -/
theorem delivered_eq_messages (tsi : Tsi) (config : ValidConfig) (stream : Stream)
    (suits : stream.Suits tsi config) (first : Op) (ops : List Op) (p : Packet)
    (begins : first.packet? = some p) (starts : p.sequence = stream.start)
    (brings : ∀ op ∈ first :: ops, stream.Brings op)
    (all : ∀ q ∈ stream.packets, ∃ op ∈ first :: ops, op.packet? = some q)
    (unharmed : ((create tsi config).run (first :: ops)).counters.losses = 0) :
    let w := create tsi config
    let history := fun counts : List Nat => first :: (ops ++ counts.map .read)
    (∃ enough, ∀ counts, enough ≤ counts.length → (∀ count ∈ counts, 0 < count) →
        (w.run (history counts)).hasPending = false) ∧
      ∀ counts, (w.run (history counts)).hasPending = false →
        w.delivered (history counts) = stream.messages ∧ w.told (history counts) = 0 ∧
          (w.run (history counts)).counters.malformed = 0 := by
  intro w history
  have hp : p ∈ stream.packets := (brings first (List.mem_cons_self ..)).mem begins
  -- The first packet gives the window its place, so it might as well have had it before.
  obtain ⟨v, placed, hsuits, hsame⟩ : ∃ v : Window, v.Placed stream.start ∧
      stream.Suits v.tsi v.config ∧ w.step first = v.step first :=
    ⟨w.define stream.start, placed_define tsi config stream.start, suits,
      starts ▸ step_create suits begins hp⟩
  have hrun : ∀ more, w.run (first :: more) = v.run (first :: more) :=
    fun more => (run_cons_congr hsame more).1
  have hrecord : ∀ more, w.record (first :: more) = v.record (first :: more) :=
    fun more => (run_cons_congr hsame more).2
  have follows := follows_run placed hsuits brings (hrun ops ▸ unharmed)
  refine ⟨⟨(v.run (first :: ops)).toRead, fun counts enough pos => ?_⟩, fun counts idle => ?_⟩
  · have hidle := follows.atRest.hasPending_reads follows.sound follows.live pos enough
    rw [← run_append] at hidle
    rw [hrun]
    exact hidle
  · rw [hrun] at idle
    have h : v.Follows stream (history counts) := follows.reads counts
    refine ⟨?_, ?_, ?_⟩
    · rw [delivered, hrecord]
      exact h.delivered_eq
        (fun q hq => (all q hq).imp fun op hop => ⟨List.mem_append_left _ hop.1, hop.2⟩) idle
    · rw [told, hrecord]
      exact h.lossless.told
    · rw [hrun]
      exact h.malformed

theorem suits_smallStream : smallStream.Suits smallTsi smallConfig where
  length_lt := by decide
  session := by decide
  size_le := by decide
  apdu_le := by decide

/-- The last packet comes before the one it continues, and packets come again after they were read
and reclaimed. -/
def shuffledHistory : List Op :=
  [smallPush 1 (some ⟨0, 1, 2⟩) 2, .confirmNak 0 0 1, .sweep 2, .read 1,
    smallPush 4294967295 none 9, .release, smallPush 4294967295 none 9,
    .pushRepair ⟨smallTsi, 0, some ⟨0, 0, 2⟩, ⟨#[1]⟩⟩ .retransmission 3, .free,
    smallPush 1 (some ⟨0, 1, 2⟩) 2]

theorem brings_shuffledHistory :
    ∀ op ∈ smallPush 4294967295 none 9 :: shuffledHistory, smallStream.Brings op := by
  have first : ⟨smallTsi, 4294967295, none, ⟨#[9]⟩⟩ ∈ smallStream.packets := List.mem_cons_self ..
  have head : ⟨smallTsi, 0, some ⟨0, 0, 2⟩, ⟨#[1]⟩⟩ ∈ smallStream.packets :=
    List.mem_cons_of_mem _ (List.mem_cons_self ..)
  have last : ⟨smallTsi, 1, some ⟨0, 1, 2⟩, ⟨#[2]⟩⟩ ∈ smallStream.packets :=
    List.mem_cons_of_mem _ (List.mem_cons_of_mem _ (List.mem_cons_self ..))
  simp only [shuffledHistory, smallPush, List.forall_mem_cons, Stream.Brings, first, head, last,
    List.not_mem_nil, false_implies, implies_true, and_self]

theorem arrives_shuffledHistory : ∀ q ∈ smallStream.packets,
    ∃ op ∈ smallPush 4294967295 none 9 :: shuffledHistory, op.packet? = some q := by
  intro q hq
  simp only [Stream.packets, smallStream, List.flatten_cons, List.flatten_nil, List.cons_append,
    List.nil_append, List.mem_cons, List.not_mem_nil, or_false] at hq
  rcases hq with rfl | rfl | rfl
  · exact ⟨smallPush 4294967295 none 9, by simp, rfl⟩
  · exact ⟨.pushRepair ⟨smallTsi, 0, some ⟨0, 0, 2⟩, ⟨#[1]⟩⟩ .retransmission 3,
      by simp [shuffledHistory], rfl⟩
  · exact ⟨smallPush 1 (some ⟨0, 1, 2⟩) 2, by simp [shuffledHistory], rfl⟩

theorem delivered_eq_messages_small :
    smallStream.Suits smallTsi smallConfig ∧
      (∀ op ∈ smallPush 4294967295 none 9 :: shuffledHistory, smallStream.Brings op) ∧
      (∀ q ∈ smallStream.packets,
        ∃ op ∈ smallPush 4294967295 none 9 :: shuffledHistory, op.packet? = some q) ∧
      ((create smallTsi smallConfig).run
        (smallPush 4294967295 none 9 :: shuffledHistory)).counters.losses = 0 ∧
      (create smallTsi smallConfig).delivered
        (smallPush 4294967295 none 9 :: (shuffledHistory ++ [3].map .read)) = smallStream.messages := by
  have unharmed : ((create smallTsi smallConfig).run
      (smallPush 4294967295 none 9 :: shuffledHistory)).counters.losses = 0 := by decide +kernel
  refine ⟨suits_smallStream, brings_shuffledHistory, arrives_shuffledHistory, unharmed, ?_⟩
  exact ((delivered_eq_messages smallTsi smallConfig smallStream suits_smallStream _ _ _ rfl rfl
    brings_shuffledHistory arrives_shuffledHistory unharmed).2 [3] (by decide +kernel)).1

end Window

end ReliableMulticast
