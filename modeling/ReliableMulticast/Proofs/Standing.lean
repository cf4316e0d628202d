import ReliableMulticast.Proofs.Firing

/-!
# Where a window stands to its sender

The sender's trail is kept from the last report that moved it, while the window goes on with the data.
Most operations change neither the trail nor the lead, and nothing begins to be missing (`Stands`).
What takes in new numbers moves the lead on by at most half of the number space, and only numbers that
are new begin to be missing (`Proceeds`).
-/

namespace ReliableMulticast.Window

variable {w w' v : Window} {notes : List Note} {s x : SeqNum} {slot : Slot} {now : Timestamp}

/-! ### Operations in place -/

/-- The lead and what is known of the sender stay, and nothing is missing that was not before. -/
structure Stands (w w' : Window) : Prop where
  senderTrail : w'.senderTrail = w.senderTrail
  next : w'.next = w.next
  missing : ∀ x, w'.IsMissing x → w.IsMissing x

namespace Stands

theorem of_slots_eq (hslots : w'.slots = w.slots) (hsender : w'.senderTrail = w.senderTrail) :
    w.Stands w' where
  senderTrail := hsender
  next := congrArg SlotRing.next hslots
  missing := fun _ ⟨slot, found, pending⟩ => ⟨slot, hslots ▸ found, pending⟩

theorem refl (w : Window) : w.Stands w := of_slots_eq rfl rfl

theorem trans (h : w.Stands v) (h' : v.Stands w') : w.Stands w' where
  senderTrail := h'.senderTrail.trans h.senderTrail
  next := h'.next.trans h.next
  missing := fun x hx => h.missing x (h'.missing x hx)

theorem modify {change : Slot → Slot}
    (keeps : ∀ slot, w.slots.get? s = some slot → (change slot).state.repairPending →
      slot.state.repairPending) : w.Stands (w.modify s change) where
  senderTrail := rfl
  next := next_of_frame_eq (frame_modify w s change)
  missing := by
    rintro x ⟨new, hnew, pending⟩
    obtain ⟨old, hold, ⟨-, rfl⟩ | ⟨rfl, rfl⟩⟩ := get?_modify_cases change hnew
    · exact ⟨new, hold, pending⟩
    · exact ⟨old, hold, keeps old hold pending⟩

theorem of_onlyLoses (h : w.OnlyLoses w') (hsender : w'.senderTrail = w.senderTrail)
    (next : w'.next = w.next) : w.Stands w' where
  senderTrail := hsender
  next := next
  missing := by
    rintro x ⟨new, hnew, pending⟩
    obtain ⟨old, hold, rfl | rfl⟩ := h.slots hnew
    · exact ⟨new, hold, pending⟩
    · rw [old.state_lose] at pending
      cases pending

theorem foldl {change : Window → SeqNum → Window}
    (h : ∀ (w : Window) (s : SeqNum), w.Stands (change w s)) (numbers : List SeqNum) (w : Window) : w.Stands (numbers.foldl change w) := by
  induction numbers generalizing w with
  | nil => exact .refl w
  | cons s numbers ih => exact (h w s).trans (ih _)

end Stands

theorem stands_giveUpSlot (w : Window) (s : SeqNum) : w.Stands (w.giveUpSlot s) := by
  refine .of_onlyLoses (w.onlyLoses_giveUpSlot s) ?_ (next_of_frame_eq (frame_giveUpSlot w s))
  unfold giveUpSlot
  split
  · rfl
  · split <;> rfl

theorem stands_giveUpMember (first : SeqNum) (w : Window) (s : SeqNum) :
    w.Stands (giveUpMember first w s) := by
  unfold giveUpMember
  split
  · exact w.stands_giveUpSlot s
  · exact .refl w

theorem stands_loseApdu (w : Window) (s : SeqNum) : w.Stands (w.loseApdu s) := by
  have here := w.stands_giveUpSlot s
  cases hf : (w.slots.get? s).bind Slot.fragment with
  | none => rwa [loseApdu_of_none hf]
  | some f =>
    rw [loseApdu_of_some hf]
    exact here.trans (.foldl (stands_giveUpMember f.apduFirst) _ _)

theorem stands_resolveStep (hstep : w.resolveStep? = some w') : w.Stands w' := by
  have counted : w.Stands { w with counters := w.counters.addMalformed } := .of_slots_eq rfl rfl
  obtain ⟨count, rfl⟩ | rfl | rfl | rfl := resolveStep?_cases hstep
  · exact .of_slots_eq rfl rfl
  · exact w.stands_giveUpSlot w.commitLead
  · exact w.stands_loseApdu w.commitLead
  · exact counted.trans (stands_loseApdu _ w.commitLead)

theorem stands_resolve (w : Window) : w.Stands w.resolve :=
  resolveSteps_of_step .refl .trans stands_resolveStep _ w

theorem stands_fillSlot (p : Packet) (source : Option RepairSource) (now : Timestamp) :
    w.Stands (w.fillSlot slot p source now) := by
  have filled : w.Stands (w.modify p.sequence fun slot =>
      slot.fill p.payload p.fragment (source = some .parity)) :=
    .modify fun _ _ pending => by cases pending
  exact filled.trans (.of_slots_eq rfl rfl)

theorem stands_storeParity (w : Window) (p : Packet) (outcome : Outcome) :
    w.Stands (w.storeParity p outcome).1 := by
  have stores := w.storesParity p outcome
  generalize w.storeParity p outcome = answer at *
  cases stores with
  | lost => exact .refl w
  | duplicate => exact .of_slots_eq rfl rfl
  | keep _ found pending _ keeps =>
    rw [keeps]
    refine Stands.trans (.modify fun other hother _ => ?_) (stands_resolve _)
    -- The slot that keeps the packet is missing its own.
    obtain rfl := Option.some.inj (found.symm.trans hother)
    exact pending

theorem stands_acceptNcf (hs : w.Sound) (s : SeqNum) (sent now : Timestamp) :
    w.Stands (w.acceptNcf s sent now).1 := by
  rcases w.acceptNcf_cases s sent now with ⟨he, -⟩ | ⟨slot, timer, -, found, runs, -, he⟩ <;> rw [he]
  · exact .refl w
  · have confirmed : w.Stands (w.modify slot.sequence (Slot.confirm w.config.1 now)) := by
      refine .modify fun other hother _ => (hs.slots hother).timer ?_
      obtain rfl := Option.some.inj (found.symm.trans hother)
      rw [runs]
      exact Option.some_ne_none timer
    exact confirmed.trans (.of_slots_eq rfl rfl)

theorem stands_announceGroups (w : Window) (size shift : Nat) :
    w.Stands (w.announceGroups size shift) := by
  rcases w.announceGroups_cases size shift with he | ⟨-, -, he⟩ <;> rw [he]
  · exact .refl w
  · exact .of_slots_eq rfl rfl

theorem stands_acceptLoss (w : Window) (s : SeqNum) : w.Stands (w.acceptLoss s).1 := by
  rcases w.acceptLoss_cases s with he | ⟨_, -, -, -, he⟩ <;> rw [he]
  · exact .refl w
  · exact (w.stands_loseApdu s).trans (stands_resolve _)

theorem senderTrail_endTimers (timer : Timer) (now : Timestamp) (due : List SeqNum) (w : Window) :
    (endTimers timer now due w).1.senderTrail = w.senderTrail := by
  induction due generalizing w with
  | nil => rfl
  | cons s due ih =>
    rw [endTimers]
    split
    · exact ih w
    · exact ih _

theorem senderTrail_endDue (w : Window) (now : Timestamp) (timer : Timer) :
    (w.endDue now timer).1.senderTrail = w.senderTrail :=
  senderTrail_endTimers timer now (w.due now timer)
    { w with queues := w.queues.set timer (w.later now timer) }

theorem stands_endAllDue (hs : w.Sound) (timed : w.Timed []) (now : Timestamp) :
    w.Stands (w.endAllDue now).1 := by
  refine endAllDue_induction (P := fun v _ => w.Stands v) hs timed now (.refl w) ?_
  intro v ended timer hs timed h
  have fires := (timed.fires_endDue now timer).1
  have next := next_of_frame_eq (v.frame_endDue now timer)
  have sender := v.senderTrail_endDue now timer
  generalize (v.endDue now timer).1 = v' at *
  refine h.trans ⟨sender, next, ?_⟩
  rintro x ⟨new, hnew, pending⟩
  by_cases hx : x ∈ v.due now timer
  · obtain ⟨old, hold, runs, -⟩ := exists_of_mem_due hx
    exact ⟨old, hold, (hs.slots hold).timer (by rw [runs]; exact Option.some_ne_none timer)⟩
  · exact ⟨new, fires.others x hx ▸ hnew, pending⟩

theorem stands_sweepAll (hs : w.Sound) (timed : w.Timed []) (now : Timestamp) :
    w.Stands (w.sweepAll now).1 := by
  have ended := stands_endAllDue hs timed now
  unfold sweepAll
  generalize w.endAllDue now = r at ended ⊢
  split
  · exact .refl w
  · exact (ended.trans (.foldl stands_loseApdu _ _)).trans (stands_resolve _)

theorem stands_deliver (w : Window) (count : Nat) : w.Stands (w.deliver count).1 := by
  have committed : w.Stands (w.commitSlots (w.commitTrail.run count)) :=
    .foldl (fun _ _ => .modify fun _ _ pending => by cases pending) _ w
  exact committed.trans (.of_slots_eq rfl rfl)

theorem stands_takeReady (length room : Nat) (w : Window) :
    w.Stands (takeReady room length w).1 := by
  have draws := draws_takeReady room length w
  generalize takeReady room length w = taken at draws ⊢
  induction draws with
  | done => exact .refl _
  | @pass _ _ w _ _ _ _ _ _ ih =>
    have passed : w.Stands { w with commitTrail := w.commitTrail.next } := .of_slots_eq rfl rfl
    exact passed.trans ih
  | cut => exact .of_slots_eq rfl rfl
  | deliver _ _ _ _ _ ih => exact (stands_deliver _ _).trans ih

theorem stands_readReady (w : Window) (count : Nat) : w.Stands (w.readReady count).1 := by
  have reported : w.Stands { w with unreportedLosses := 0 } := .of_slots_eq rfl rfl
  have taken := stands_takeReady (w.commitTrail.gap w.commitLead) count { w with unreportedLosses := 0 }
  exact (reported.trans taken).trans (stands_resolve _)

theorem pending_of_retain (h : slot.retain.state.repairPending) : slot.state.repairPending := by
  rcases slot.retain_cases with he | ⟨-, he⟩ <;> rw [he] at h
  · exact h
  · cases h

theorem stands_releaseUpTo (limit : Nat) (w : Window) : w.Stands (releaseUpTo limit w).1 := by
  have releases := releases_releaseUpTo limit w
  generalize (releaseUpTo limit w).1 = w' at releases ⊢
  induction releases with
  | done => exact .refl _
  | hold => exact .modify fun _ _ => pending_of_retain
  | @drop _ w _ before unneeded later ih =>
    refine Stands.trans ?_ ih
    unfold dropTrail
    split
    · exact .refl w
    next slots hpop =>
      refine ⟨rfl, SlotRing.next_of_popTrail? hpop, ?_⟩
      rintro x ⟨slot, found, pending⟩
      exact ⟨slot, get?_of_popTrail? hpop found, pending⟩

theorem stands_freeDelivered (w : Window) : w.Stands w.freeDelivered := by
  refine .foldl (fun w s => .modify fun slot _ pending => ?_) _ w
  split at pending
  · exact pending_of_retain pending
  · rwa [slot.state_dropPayload] at pending

/-! ### Operations that move the lead -/

/-- A packet that was in the window and misses its data in the end missed it before. -/
theorem Moves.isMissing_of (hm : w.Moves notes w') (h : w.Sound) (defined : w.isDefined)
    (near : Note.advance notes ≤ 2147483648) (hx : w.slots.Contains x) (missing : w'.IsMissing x) :
    w.IsMissing x := by
  induction hm with
  | done => exact missing
  | next first later ih =>
    have inside : _ := contains_of_get? missing.choose_spec.1
    have hbetween := first.moves.contains_between later h defined near hx inside
    rw [Note.advance_append] at near
    obtain ⟨new, hnew, pending⟩ :=
      ih (first.sound h) (first.keeps.isDefined defined) (by omega) hbetween missing
    obtain ⟨old, hold, hturns⟩ := first.exists_turns h hx hnew
    exact ⟨old, hold, hturns.pending pending⟩

/-- What misses its packet after moves missed it before or is one of the numbers that the lead went
over. -/
theorem Moves.missing_cases (hm : w.Moves notes w') (h : w.Sound) (defined : w.isDefined)
    (near : Note.advance notes ≤ 2147483648) (missing : w'.IsMissing x) :
    w.IsMissing x ∨ x.gap w'.next ≤ w.next.gap w'.next := by
  by_cases hx : w.slots.Contains x
  · exact .inl (hm.isMissing_of h defined near hx missing)
  right
  obtain ⟨m, hmoved, hbound⟩ := hm.exists_movedOn h defined
  have hlt := contains_iff_place.1 (contains_of_get? missing.choose_spec.1)
  have hct := h.place_commitTrail_le
  have hsize := h.size_le
  have hsize' := (hm.sound h).size_le
  have hmore := hmoved.size
  have hadd : w.trail + (m + w'.place x) = x := by
    rw [← SeqNum.add_add, ← hmoved.trail, trail_add_place]
  have hnext : w'.next = w.trail + (m + w'.slots.size) := by
    rw [← SeqNum.add_add, ← hmoved.trail]
    rfl
  have hplace : w.place x = m + w'.place x := by
    conv_lhs => rw [← hadd]
    exact SeqNum.gap_add _ (by omega)
  rw [contains_iff_place, hplace] at hx
  have hgap : w.next.gap w'.next = m + w'.slots.size - w.slots.size := by
    rw [hnext]
    exact SeqNum.gap_add_add w.trail (by omega) (by omega)
  have hback : x.gap w'.next = w'.slots.size - w'.place x := by
    rw [← w'.place_next]
    exact gap_eq_place_sub (by rw [place_next]; omega)
  rw [hgap, hback]
  omega

/-- The lead moves on by at most half of the number space, and what is missing was missing before or is
new. -/
structure Proceeds (w w' : Window) : Prop where
  senderTrail : w'.senderTrail = w.senderTrail
  next : ∃ n ≤ 2147483648, w'.next = w.next + n
  missing : ∀ x, w'.IsMissing x → w.IsMissing x ∨ x.gap w'.next ≤ w.next.gap w'.next

theorem Stands.proceeds (h : w.Stands w') : w.Proceeds w' :=
  ⟨h.senderTrail, ⟨0, by omega, h.next.trans (SeqNum.add_zero _).symm⟩,
    fun x hx => .inl (h.missing x hx)⟩

theorem Proceeds.stands (h : w.Proceeds v) (h' : v.Stands w') : w.Proceeds w' where
  senderTrail := h'.senderTrail.trans h.senderTrail
  next := h'.next ▸ h.next
  missing := fun x hx => h'.next ▸ h.missing x (h'.missing x hx)

theorem Stands.trans_proceeds (h : w.Stands v) (h' : v.Proceeds w') : w.Proceeds w' where
  senderTrail := h'.senderTrail.trans h.senderTrail
  next := h.next ▸ h'.next
  missing := fun x hx => (h'.missing x hx).imp (h.missing x) fun new => h.next ▸ new

theorem senderTrail_makeRoom (w : Window) (last : SeqNum) :
    (w.makeRoom last).senderTrail = w.senderTrail := by
  obtain ⟨_, _, _, _, _, _, he⟩ := w.givesWay_makeRoom last
  rw [he]

theorem senderTrail_addPlaceholders (w : Window) (stop : SeqNum) (now : Timestamp) :
    (w.addPlaceholders stop now).senderTrail = w.senderTrail := by
  obtain ⟨_, _, _, he⟩ := w.addPlaceholders_eq stop now
  rw [he]

theorem proceeds_advanceLead (hs : w.Sound) (defined : w.isDefined) {lead : SeqNum}
    (ahead : lead.After w.lead) (now : Timestamp) : w.Proceeds (w.advanceLead lead now) := by
  rw [after_lead_iff] at ahead
  obtain ⟨notes, hshed, hmoves⟩ := advanceLead_spec hs defined ahead now
  obtain ⟨_, -, hroomy, -⟩ := makeRoom_spec hs defined ahead
  have hsize : w.slots.size ≤ w.capacity := w.slots.size_le
  have hadvance := advance_of_shed hshed
  obtain ⟨-, hnext, -⟩ := addPlaceholders_spec (hroomy.sound hs) (hroomy.keeps.isDefined defined)
    lead.next now (room_makeRoom hs defined ahead)
  refine ⟨?_, ⟨w.next.gap lead + 1, by omega, ?_⟩, fun x hx =>
    hmoves.missing_cases hs defined (by omega) hx⟩
  · rw [advanceLead, senderTrail_addPlaceholders, senderTrail_makeRoom]
  · refine hnext.trans ?_
    rw [← SeqNum.add_next, SeqNum.add_gap]

theorem proceeds_extend (hs : w.Sound) (defined : w.isDefined) {p : Packet}
    (ahead : p.sequence.After w.lead) (now : Timestamp) : w.Proceeds (w.extend p now) := by
  rw [after_lead_iff] at ahead
  obtain ⟨-, notes, hshed, hmoves⟩ := extend_spec hs defined ahead now
  obtain ⟨_, -, hroomy, hroom⟩ := makeRoom_spec hs defined ahead
  have hsize : w.slots.size ≤ w.capacity := w.slots.size_le
  have hadvance := advance_of_shed hshed
  have hcap := hroomy.capacity_eq hs
  have hsound := hroomy.sound hs
  obtain ⟨hfill, hnext, hfilled⟩ := addPlaceholders_spec hsound (hroomy.keeps.isDefined defined)
    p.sequence now (by omega)
  have hcap' := hfill.capacity_eq hsound
  have here : (Slot.ofPacket p now).sequence =
      ((w.makeRoom p.sequence).addPlaceholders p.sequence now).next := hnext.symm
  have hlead : (w.extend p now).next = p.sequence.next := by
    refine (places_append here (by omega)).1.trans ?_
    rw [hnext]
  have hstored : Note.advance (notes ++ [.stored p]) = Note.advance notes := Note.advance_append ..
  refine ⟨?_, ⟨w.next.gap p.sequence + 1, by omega, ?_⟩, fun x hx =>
    hmoves.missing_cases hs defined (by omega) hx⟩
  · rw [extend, append, senderTrail_addPlaceholders, senderTrail_makeRoom]
  · rw [hlead, ← SeqNum.add_next, SeqNum.add_gap]

end ReliableMulticast.Window
