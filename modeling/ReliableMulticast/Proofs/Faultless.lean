import ReliableMulticast.Proofs.Firing

/-!
# Nothing fails

The ring takes a slot in only if it is the next one in sequence and finds room, and the counters of a
window have a fixed width. Neither limit is ever met. Every move that appends a slot has made room for
it (`Move.fault_eq_none`), so a history leaves no fault behind, whatever arrives. The rest follows from what
the configuration and the size of the ring allow.
-/

namespace ReliableMulticast

/-- A repair that is requested once more was requested fewer times than its counter can tell. -/
theorem Slot.dataRetries_lt_of_requested {slot : Slot} {c : WindowConfig} {now : Timestamp}
    (requested : (slot.expireData c now).2.isSome) : slot.dataRetries < maxCount := by
  have hmost := c.maxNaks.toNat_lt
  have hleast := c.minNaks.toNat_lt
  have hbudget : slot.dataBudget c ≤ maxCount := by
    unfold dataBudget maxCount
    omega
  unfold expireData at requested
  split at requested
  · cases requested
  · omega

namespace Window

variable {w w' : Window} {notes : List Note}

/-! ### Appended slots -/

/-- A window stays without a fault exactly if the slot appended is the next one in sequence and finds
room. -/
theorem fault_append_eq_none_iff {slot : Slot} : (w.append slot).fault = none ↔
    w.fault = none ∧ slot.sequence = w.next ∧ w.slots.size < w.capacity := by
  change (w.fault <|> w.slots.refusal? slot) = none ↔ _
  cases w.fault with
  | none =>
    rw [Option.orElse_eq_orElse, Option.orElse_none, SlotRing.refusal?_eq_none_iff]
    exact (and_iff_right rfl).symm
  | some => simp

/-- No move makes a fault. -/
theorem Move.fault_eq_none (h : w.Move notes w') (fault : w.fault = none) : w'.fault = none := by
  cases h.framed with
  | same frame => exact (congrArg Frame.fault frame).trans fault
  | append slot _ _ next room => exact fault_append_eq_none_iff.2 ⟨fault, next, room⟩
  | reclaim =>
    rw [dropTrail_eq]
    exact fault
  | overrun =>
    obtain ⟨_, _, _, _, _, _, he⟩ := w.givesWay_evictTrail
    exact (congrArg Window.fault he).trans fault
  | skip target =>
    obtain ⟨_, _, _, _, _, _, he⟩ := (w.givesWay_skipTo target).trans (givesWay_clampCommit _)
    exact (congrArg Window.fault he).trans fault
  | deliver count => exact (congrArg Frame.fault (frame_deliver w count)).trans fault
  | regroup | define | pass | passLost | report => exact fault

theorem Moves.fault_eq_none (h : w.Moves notes w') (fault : w.fault = none) : w'.fault = none := by
  induction h with
  | done => exact fault
  | next first _ ih => exact ih (first.fault_eq_none fault)

/-! ### Counts -/

/-- An APDU that is complete has no more packets than the window has slots. -/
theorem count_le_of_scanApdu {first : SeqNum} {total count : Nat}
    (whole : w.scanApdu first total = .complete count) : count ≤ w.slots.size := by
  obtain ⟨apdu, rest, hslots, rfl, -⟩ := scanApdu_eq_complete_iff.1 whole
  have hle : apdu.length ≤ (w.slots.slotsFrom first).length := by
    rw [hslots, List.length_append]
    exact Nat.le_add_right ..
  refine hle.trans ?_
  unfold SlotRing.slotsFrom
  split
  next inside =>
    refine (List.length_filterMap_le ..).trans ?_
    have hplace := contains_iff_place.1 inside
    change ((first.run (first.gap w.next))).length ≤ w.slots.size
    rw [SeqNum.length_run, gap_eq_place_sub (by rw [place_next]; exact Nat.le_of_lt hplace), place_next]
    exact Nat.sub_le ..
  · exact Nat.zero_le _

/-- A request of a sweep asks for no more packets than the window has slots. -/
theorem Timed.count_le_of_mem_sweepAll (timed : w.Timed []) (hs : w.Sound) {now : Timestamp}
    {r : NakRequest} (hr : r ∈ (w.sweepAll now).2) : r.count ≤ w.slots.size := by
  unfold Window.sweepAll at hr
  split at hr
  · cases hr
  · exact (NakRequest.count_le_of_mem_coalesce r hr).trans (timed.countP_nak?_endAllDue hs now r.stage)

/-! ### Histories -/

/-- What a history leaves of a window, be it shut down or not. -/
structure Intact (w : Window) : Prop where
  fault : w.fault = none
  groupSize_pos : 0 < w.groupSize

theorem Intact.step (h : w.Intact) (hs : w.Sound) (live : w.isGone = false) {op : Op}
    (part : op.isPart) : (w.step op).1.Intact := by
  by_cases hop : op = .shutdown
  · subst hop
    simp only [Window.step, shutdown, live, Bool.false_eq_true, if_false]
    exact ⟨h.fault, h.groupSize_pos⟩
  · obtain ⟨notes, hmoves, -⟩ := step_spec_of_ne hs live part hop
    exact ⟨hmoves.fault_eq_none h.fault, (hmoves.sound hs).groupSize_pos⟩

theorem intact_run_parts (tsi : Tsi) (config : ValidConfig) {ops : List Op}
    (parts : ∀ op ∈ ops, op.isPart) : ((create tsi config).run ops).Intact := by
  induction ops using List.reverseRecOn with
  | nil => exact ⟨rfl, (sound_create tsi config).groupSize_pos⟩
  | append_singleton ops op ih =>
    have part := parts op (List.mem_append_right ops (List.mem_singleton_self op))
    have before := ih fun x hx => parts x (List.mem_append_left _ hx)
    rw [run_concat]
    cases hlive : ((create tsi config).run ops).isGone with
    | true => rwa [step_of_gone hlive part]
    | false => exact before.step (sound_run (sound_create tsi config) hlive).1 hlive part

theorem intact_run (tsi : Tsi) (config : ValidConfig) (ops : List Op) :
    ((create tsi config).run ops).Intact := by
  rw [← run_parts]
  exact intact_run_parts tsi config isPart_of_mem_parts

/-- Nothing that a window computes fails: its ring took every slot in, and no index is out of range and
no count out of its width. -/
structure Faultless (w : Window) : Prop where
  /-- All slots so far were the next ones in sequence when they were appended, and found room. -/
  fault : w.fault = none
  /-- Every number has a cell in the ring. -/
  offset_lt : ∀ s : SeqNum, s.offset w.slots.cells.size < w.slots.cells.size
  capacity_pos : 1 ≤ w.capacity
  groupSize_pos : 1 ≤ w.groupSize
  /-- The end of a fragment that is not oversized fits into 64 bits. -/
  fragmentEnd_lt : ∀ (p : Packet) (f : Fragment), w.isOversized p = false → p.fragment = some f →
    f.offset.toNat + p.size < 2 ^ 64
  /-- A repair whose data did not come and that is requested again is counted in 8 bits. -/
  dataRetries_lt : ∀ (slot : Slot) (now : Timestamp), (slot.expireData w.config.1 now).2.isSome →
    slot.dataRetries + 1 < 2 ^ 8
  /-- The packets of an APDU that is complete, from its first to its last, are counted in 32 bits. -/
  apduCount_lt : ∀ (first : SeqNum) (total count : Nat), w.scanApdu first total = .complete count →
    first.gap (first + (count - 1)) + 1 < 2 ^ 32
  /-- So are the packets that a request asks for. -/
  nakCount_lt : ∀ now, ∀ r ∈ (w.sweep now).2, r.first.gap r.last + 1 < 2 ^ 32

/-- Whatever arrives, and in whatever order and at whatever times, nothing fails in a window. -/
theorem faultless_run (tsi : Tsi) (config : ValidConfig) (ops : List Op) :
    ((create tsi config).run ops).Faultless := by
  have intact := intact_run tsi config ops
  have timed := timed_run tsi config ops
  have sound (live : ((create tsi config).run ops).isGone = false) :=
    (sound_run (sound_create tsi config) live).1
  generalize (create tsi config).run ops = w at *
  have hsize := w.slots.size_le_maxRing
  refine ⟨intact.fault, fun s => Nat.mod_lt _ w.slots.cells_pos, w.slots.capacity_pos,
    intact.groupSize_pos, fun p f fits _ => ?_, fun slot now requested => ?_,
    fun first total count whole => ?_, fun now r hr => ?_⟩
  · have hoffset := f.offset.toNat_lt
    have hmost := w.config.1.maxTpdu.toNat_lt
    have hfits : p.size ≤ w.config.1.maxTpdu.toNat := Nat.not_lt.1 (of_decide_eq_false fits)
    omega
  · have hretries := Slot.dataRetries_lt_of_requested requested
    unfold Slot.maxCount at hretries
    omega
  · have hcount := count_le_of_scanApdu whole
    rw [SeqNum.gap_add first (by omega)]
    omega
  · change r.count < _
    unfold sweep whileLive at hr
    split at hr
    · cases hr
    next live =>
      have := timed.count_le_of_mem_sweepAll (sound (by simpa using live)) hr
      omega

end Window

end ReliableMulticast
