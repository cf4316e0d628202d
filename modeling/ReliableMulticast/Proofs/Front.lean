import ReliableMulticast.Proofs.History

/-!
# The front at rest

A window is at rest if there is nothing to resolve at its front: the slot there is missing, or
begins an APDU that misses a packet, or there is none (`atRest_iff`). Resolving ends at rest, as
each of its steps leaves less to do than before (`unsettled_resolveStep`). What happens behind the
front or makes a missing packet wait in another way keeps a window at rest, and so does reading: of
a window at rest all that is readable can be read.
-/

namespace ReliableMulticast

/-- The front cannot tell the slots apart: they are the same, or both packets are missing. -/
def Slot.Alike (slot new : Slot) : Prop :=
  new = slot ∨ slot.state.repairPending ∧ new.state.repairPending

theorem scanFragments_congr {first : SeqNum} {total received : Nat} {slots slots' : List Slot}
    (h : List.Forall₂ Slot.Alike slots slots') :
    scanFragments first total received slots' = scanFragments first total received slots := by
  induction h generalizing received with
  | nil => rfl
  | cons halike _ ih =>
    rcases halike with rfl | ⟨hold, hnew⟩
    · simp only [scanFragments, ih]
    · rw [scanFragments_of_pending hold, scanFragments_of_pending hnew]

namespace Window

variable {w w' : Window}

/-- Nothing can be resolved at the front. -/
def AtRest (w : Window) : Prop := w.resolveStep? = none

/-- The slot at the front misses its packet or begins an APDU that misses one. -/
theorem atRest_iff : w.AtRest ↔ ∀ slot, w.slots.get? w.commitLead = some slot →
    slot.state.repairPending ∨ slot.state = .haveData ∧ ∃ f, slot.fragment = some f ∧
      f.apduFirst = w.commitLead ∧ w.scanApdu w.commitLead f.totalLength.toNat = .incomplete := by
  unfold AtRest resolveStep?
  cases w.slots.get? w.commitLead with
  | none => simp
  | some slot =>
    simp only [Option.some.injEq, forall_eq']
    split
    next hp => simp [hp]
    next hp =>
      split
      next hdata =>
        cases slot.fragment with
        | none => simp [hp]
        | some f =>
          by_cases hfirst : f.apduFirst = w.commitLead
          · cases hscan : w.scanApdu w.commitLead f.totalLength.toNat <;>
              simp [hdata, hfirst, hscan, SlotState.repairPending]
          · simp [hp, hfirst]
      next hdata => simp [hp, hdata]

theorem AtRest.resolve_eq (h : w.AtRest) : w.resolve = w := by
  unfold resolve
  cases 2 * w.commitLead.gap w.next with
  | zero => rfl
  | succ steps =>
    rw [resolveSteps, show w.resolveStep? = none from h]

/-! ### Resolving ends -/

/-- How much is left to do at the front: each slot has to be passed and may have to be given up. -/
def unsettled (w : Window) : Nat :=
  2 * w.commitLead.gap w.next - if w.slotIs w.commitLead Slot.isLost then 1 else 0

theorem unsettled_le (w : Window) : w.unsettled ≤ 2 * w.commitLead.gap w.next := Nat.sub_le ..

theorem unsettled_passFront {count : Nat} (pos : 0 < count)
    (inside : w.place w.commitLead + count ≤ w.slots.size) :
    (w.passFront count).unsettled < w.unsettled := by
  have hsize := w.slots.size_le_maxRing
  have hgap := gap_next_of_place (w := w) (x := w.commitLead) (by omega)
  have hplace : w.place (w.commitLead + count) = w.place w.commitLead + count :=
    w.place_add (by omega)
  have hrest := gap_next_of_place (w := w) (x := w.commitLead + count) (by omega)
  have hle : (w.passFront count).unsettled ≤ 2 * (w.commitLead + count).gap w.next :=
    (w.passFront count).unsettled_le
  have hleft : 2 * w.commitLead.gap w.next ≤ w.unsettled + 1 := by
    unfold unsettled
    split <;> omega
  omega

/-- Giving up the slot at the front is half of what there is to do with it. -/
theorem unsettled_of_lost {slot new : Slot} (found : w.slots.get? w.commitLead = some slot)
    (held : slot.state = .haveData) (hf : w'.frame = w.frame)
    (found' : w'.slots.get? w.commitLead = some new) (lost : new.state = .lost) :
    w'.unsettled < w.unsettled := by
  have hlt := place_lt_of_get? found
  have hgap := gap_next_of_place (Nat.le_of_lt hlt)
  have hlead : w'.commitLead = w.commitLead := congrArg Frame.commitLead hf
  rw [unsettled, unsettled, hlead, next_of_frame_eq hf, slotIs, slotIs, found, found']
  simp only [Option.any_some, Slot.isLost, held, lost, reduceCtorEq, decide_true, decide_false,
    Bool.false_eq_true, if_true, if_false]
  omega

theorem unsettled_resolveStep (hstep : w.resolveStep? = some w') : w'.unsettled < w.unsettled := by
  have lost : ∀ {slot : Slot} (v : Window), w.slots.get? w.commitLead = some slot →
      slot.state = .haveData → v.frame = w.frame → v.slots = w.slots →
      (v.loseApdu w.commitLead).unsettled < w.unsettled := by
    intro slot v found held hframe hslots
    obtain ⟨new, hnew, hlost⟩ := get?_loseApdu_self (w := v) (hslots ▸ found)
    exact unsettled_of_lost found held ((frame_loseApdu v _).trans hframe) hnew hlost
  cases frontStep hstep with
  | single found | settled found => exact unsettled_passFront Nat.one_pos (place_lt_of_get? found)
  | whole found held fragment here scan =>
    obtain ⟨inside, fragments⟩ := slice_of_scan found scan
    have hlength := SlotRing.length_slice (r := w.slots) (s := w.commitLead) inside
    exact unsettled_passFront (hlength ▸ fragments.length_pos) inside
  | @orphan slot _ found held =>
    refine unsettled_of_lost found held (frame_giveUpSlot w _) ?_ slot.state_lose
    rw [get?_giveUpSlot, if_pos rfl, found]
    rfl
  | collapse found held => exact lost w found held rfl rfl
  | garble found held =>
    exact lost { w with counters := w.counters.addMalformed } found held rfl rfl

theorem atRest_resolveSteps {steps : Nat} (enough : w.unsettled ≤ steps) :
    (resolveSteps steps w).AtRest := by
  induction steps generalizing w with
  | zero =>
    rw [resolveSteps, AtRest, Option.eq_none_iff_forall_ne_some]
    intro w' hstep
    have := unsettled_resolveStep hstep
    omega
  | succ steps ih =>
    rw [resolveSteps]
    split
    next hrest => exact hrest
    next w' hstep =>
      have := unsettled_resolveStep hstep
      exact ih (by omega)

/-- Resolving takes all steps there are. -/
theorem atRest_resolve (w : Window) : w.resolve.AtRest := atRest_resolveSteps w.unsettled_le

/-! ### Staying at rest -/

theorem AtRest.of_slots_eq (h : w.AtRest) (hslots : w'.slots = w.slots)
    (hlead : w'.commitLead = w.commitLead) : w'.AtRest := by
  rw [atRest_iff] at h ⊢
  simpa only [scanApdu, hslots, hlead] using h

theorem atRest_of_empty (empty : w.slots.size = 0) : w.AtRest := by
  rw [atRest_iff]
  intro slot found
  cases (get?_of_empty empty _).symm.trans found

/-- Changes that the front cannot see. -/
theorem AtRest.of_alike (h : w.AtRest) (hs : w.Sound) (hs' : w'.Sound)
    (hlead : w'.commitLead = w.commitLead) (hnext : w'.next = w.next)
    (halike : ∀ k slot, k < w.commitLead.gap w.next →
      w.slots.get? (w.commitLead + k) = some slot →
      ∃ new, w'.slots.get? (w.commitLead + k) = some new ∧ slot.Alike new) : w'.AtRest := by
  rw [atRest_iff] at h ⊢
  intro new found'
  have hlt' := place_lt_of_get? found'
  have hgap' := hs'.gap_commitLead
  have hgap := hs.gap_commitLead
  rw [hlead, hnext] at hgap'
  rw [hlead] at found' hlt' ⊢
  have hcontains : w.slots.Contains w.commitLead := contains_iff_place.2 (by omega)
  have hcontains' : w'.slots.Contains w.commitLead := contains_iff_place.2 hlt'
  obtain ⟨slot, found⟩ := SlotRing.exists_get? hcontains
  have hscan : ∀ total, w'.scanApdu w.commitLead total = w.scanApdu w.commitLead total := by
    intro total
    rw [scanApdu, scanApdu, slotsFrom_eq_slice hcontains, slotsFrom_eq_slice hcontains', hnext]
    refine scanFragments_congr (SlotRing.forall₂_slice ?_ halike)
    change w.place w.commitLead + _ ≤ _
    omega
  obtain ⟨_, hnew, hal⟩ := halike 0 slot (by omega) (by rwa [SeqNum.add_zero])
  rw [SeqNum.add_zero, found'] at hnew
  obtain rfl := Option.some.inj hnew
  rcases hal with rfl | ⟨-, hp⟩
  · simpa only [hscan] using h _ found
  · exact .inl hp

/-- Changes behind the front. -/
theorem AtRest.of_behind (h : w.AtRest) (hs : w.Sound) (hs' : w'.Sound)
    (hlead : w'.commitLead = w.commitLead) (hnext : w'.next = w.next)
    (hsame : ∀ x, w.place w.commitLead ≤ w.place x → w'.slots.get? x = w.slots.get? x) :
    w'.AtRest := by
  refine h.of_alike hs hs' hlead hnext fun k slot hk found => ⟨slot, ?_, .inl rfl⟩
  have hsize := hs.size_le
  have hgap := hs.gap_commitLead
  rw [hsame _ (by rw [w.place_add (by omega)]; omega), found]

/-! ### Operations -/

theorem AtRest.ensureDefined (h : w.AtRest) (s : SeqNum) :
    (w.ensureDefined s).AtRest := by
  unfold Window.ensureDefined
  split
  · exact h
  · exact atRest_of_empty rfl

theorem AtRest.acceptData (h : w.AtRest) (p : Packet)
    (source : Option RepairSource) (now : Timestamp) : (w.acceptData p source now).1.AtRest := by
  cases hm : w.isMalformed p with
  | true =>
    rw [acceptData_of_malformed hm]
    exact h.of_slots_eq rfl rfl
  | false =>
    have hplaced := h.ensureDefined p.sequence
    have htakes := takes_acceptData hm source now
    generalize w.acceptData p source now = answer at htakes
    generalize w.ensureDefined p.sequence = w at *
    cases htakes with
    | behind | lost => exact hplaced
    | duplicate => exact hplaced.of_slots_eq rfl rfl
    | ahead | missing => exact atRest_resolve _

/-- A slot that is confirmed goes on waiting. -/
theorem AtRest.restart (h : w.AtRest) (hs : w.Sound) {slot : Slot} {timer : Timer}
    (found : w.slots.get? slot.sequence = some slot) (runs : slot.timer = some timer)
    (now : Timestamp) : (w.restart slot timer now).AtRest := by
  have pending := (hs.slots found).timer (by rw [runs]; exact Option.some_ne_none _)
  have waits := (slot.waits_confirm w.config.1 now).pending pending
  have hframe := frame_modify w slot.sequence (Slot.confirm w.config.1 now)
  have hsound : (w.restart slot timer now).Sound :=
    (hs.wait found pending waits).of_slots_eq rfl rfl
  refine h.of_alike hs hsound rfl (next_of_frame_eq hframe) fun k old _ hold => ?_
  have hget := get?_modify w slot.sequence (w.commitLead + k) (Slot.confirm w.config.1 now)
  by_cases hx : w.commitLead + k = slot.sequence
  · rw [if_pos hx, hold] at hget
    rw [hx, found] at hold
    obtain rfl := Option.some.inj hold
    exact ⟨_, hget, .inr ⟨pending, waits⟩⟩
  · rw [if_neg hx, hold] at hget
    exact ⟨old, hget, .inl rfl⟩

theorem AtRest.acceptNcf (h : w.AtRest) (hs : w.Sound) (s : SeqNum) (sent now : Timestamp) :
    (w.acceptNcf s sent now).1.AtRest := by
  rcases w.acceptNcf_cases s sent now with ⟨he, -⟩ | ⟨slot, timer, -, found, runs, -, he⟩ <;> rw [he]
  · exact h
  · exact h.restart hs found runs now

theorem atRest_sweepAll (hs : w.Sound) (now : Timestamp) : (w.sweepAll now).1.AtRest := by
  have hlose := moves_loseExhausted hs now
  rcases hend : w.endAllDue now with ⟨w', ended⟩
  rw [hend] at hlose
  simp only [sweepAll, hend]
  split
  next hd => exact atRest_of_empty (hs.blank (by simpa using hd)).1
  · exact atRest_resolve _

theorem AtRest.deliver (h : w.AtRest) (hs : w.Sound) {slot : Slot} {count : Nat}
    (unread : w.commitTrail ≠ w.commitLead) (found : w.slots.get? w.commitTrail = some slot)
    (held : slot.state ≠ .lost) (whole : w.apduCount? w.commitTrail slot = some count) :
    (w.deliver count).1.AtRest := by
  obtain ⟨hinside, -⟩ := hs.front_slice unread found held whole
  have hcl := hs.commitLead_le
  have hframe := frame_deliver w count
  refine h.of_behind hs (hs.deliver unread found held whole) (congrArg Frame.commitLead hframe)
    ?_ fun x hx => ?_
  · change (w.deliver count).1.slots.trail + _ = w.slots.trail + _
    rw [show (w.deliver count).1.slots.trail = w.slots.trail from congrArg Frame.trail hframe,
      show (w.deliver count).1.slots.size = w.slots.size from congrArg Frame.size hframe]
  · rw [get?_deliver, if_neg]
    rw [hs.mem_run_commitTrail (by omega)]
    omega

/-- All that is readable can be read, so a read of a window at rest leaves nothing to resolve. -/
theorem AtRest.takeReady (length room : Nat) (h : w.AtRest) (hs : w.Sound) :
    (takeReady room length w).1.AtRest := by
  have draws := draws_takeReady room length w
  generalize Window.takeReady room length w = taken at draws ⊢
  induction draws with
  | done => exact h
  | pass unread found lost _ ih =>
    exact ih (h.of_slots_eq rfl rfl) ((Move.passLost unread found lost).sound hs)
  | cut unread found held cut => exact absurd cut (hs.apduCount?_ne_none unread found held)
  | deliver unread found held whole _ ih =>
    exact ih (h.deliver hs unread found held whole)
      ((Move.deliver _ unread found held whole).sound hs)

/-- Reading resolves nothing more. -/
theorem AtRest.readReady_eq (h : w.AtRest) (hs : w.Sound) (count : Nat) :
    (w.readReady count).1 = (Window.takeReady count (w.commitTrail.gap w.commitLead)
      { w with unreportedLosses := 0 }).1 := by
  have hrest : { w with unreportedLosses := 0 }.AtRest := h.of_slots_eq rfl rfl
  exact (hrest.takeReady (w.commitTrail.gap w.commitLead) count hs.report).resolve_eq

theorem AtRest.readReady (h : w.AtRest) (hs : w.Sound) (count : Nat) :
    (w.readReady count).1.AtRest := by
  have hrest : { w with unreportedLosses := 0 }.AtRest := h.of_slots_eq rfl rfl
  rw [h.readReady_eq hs]
  exact hrest.takeReady _ count hs.report

theorem AtRest.releaseUpTo (limit : Nat) (h : w.AtRest) (hs : w.Sound) :
    (releaseUpTo limit w).1.AtRest := by
  have releases := releases_releaseUpTo limit w
  generalize (Window.releaseUpTo limit w).1 = w' at releases ⊢
  induction releases with
  | done => exact h
  | @hold _ w before retained =>
    have behind := hs.trail_before_iff.1 before
    have hle := hs.commitTrail_le
    have htrail := w.place_trail
    refine h.of_behind hs (hs.retain (by omega)) rfl
      (next_of_frame_eq (frame_modify w w.trail Slot.retain)) fun x hx => ?_
    rw [get?_modify, if_neg]
    rintro rfl
    omega
  | @drop _ w _ before unneeded later ih =>
    have behind := hs.trail_before_iff.1 before
    have hle := hs.commitTrail_le
    have hct := hs.place_commitTrail_le
    have htrail := w.place_trail
    have hsound := hs.reclaim behind
    obtain ⟨-, hnext, hget⟩ := dropTrail_spec (w := w) (by omega)
    refine ih (h.of_behind hs hsound (commitLead_dropTrail _) hnext fun x hx => ?_) hsound
    rw [hget, if_neg]
    rintro rfl
    omega

theorem AtRest.freeDelivered (h : w.AtRest) (hs : w.Sound) : w.freeDelivered.AtRest := by
  have behind := hs.behind_of_mem
  unfold Window.freeDelivered
  generalize w.trail.upTo w.commitTrail = numbers at behind
  induction numbers generalizing w with
  | nil => exact h
  | cons s numbers ih =>
    have hbehind := behind s (List.mem_cons_self ..)
    obtain ⟨_, hfree⟩ := move_freeSlot hbehind
    have hsound := hfree.sound hs
    have hle := hs.commitTrail_le
    have hframe := frame_freeSlot w s
    refine ih (h.of_behind hs hsound (congrArg Frame.commitLead hframe) (next_of_frame_eq hframe)
      fun x hx => ?_) hsound fun x hx => ?_
    · rw [freeSlot, get?_modify, if_neg]
      rintro rfl
      omega
    · rw [place_freeSlot, place_freeSlot, commitTrail_freeSlot]
      exact behind x (List.mem_cons_of_mem s hx)

/-! ### Reading to the end -/

/-- How many reads there is something for at most: one for each number of the readable part, or one
that tells the losses. -/
def toRead (w : Window) : Nat := w.commitTrail.gap w.commitLead + min w.unreportedLosses 1

theorem hasPending_eq_false_iff (live : w.isGone = false) : w.hasPending = false ↔ w.toRead = 0 := by
  have hgap : w.commitTrail = w.commitLead ↔ w.commitTrail.gap w.commitLead = 0 :=
    SeqNum.gap_eq_zero_iff.symm
  simp only [hasPending, hasReady, live, toRead, Bool.not_false, Bool.true_and, decide_eq_false_iff_not,
    not_or, not_not, hgap]
  omega

/-- Reading shortens the readable part, unless there is nothing in it or nothing is asked for. -/
theorem gap_takeReady (length room : Nat) (hs : w.Sound) :
    (takeReady room length w).1.commitTrail.gap (takeReady room length w).1.commitLead ≤
      w.commitTrail.gap w.commitLead - min room (min length 1) := by
  have draws := draws_takeReady room length w
  generalize takeReady room length w = taken at draws ⊢
  induction draws with
  | @done _ _ w stop =>
    rcases stop with read | rfl | rfl | absent
    · rw [read, SeqNum.gap_self, Nat.zero_sub]
    · rw [Nat.zero_min]
      exact Nat.le_refl _
    · rw [Nat.zero_min, Nat.min_zero]
      exact Nat.le_refl _
    · by_cases read : w.commitTrail = w.commitLead
      · rw [read, SeqNum.gap_self, Nat.zero_sub]
      · obtain ⟨_, found, -⟩ := hs.front_cases read
        cases absent.symm.trans found
  | pass unread found lost _ ih =>
    have hrest := gap_passLost unread
    have hlater := ih (hs.passLost unread found lost)
    simp only at hlater ⊢
    omega
  | cut unread found held cut => exact absurd cut (hs.apduCount?_ne_none unread found held)
  | deliver unread found held whole _ ih =>
    have hrest := hs.gap_deliver unread found held whole
    have hlater := ih (hs.deliver unread found held whole)
    simp only
    omega

theorem toRead_readReady (h : w.AtRest) (hs : w.Sound) {count : Nat} (pos : 0 < count) :
    (w.readReady count).1.toRead ≤ w.toRead - 1 := by
  have hgap := gap_takeReady (w.commitTrail.gap w.commitLead) count hs.report
  have hzero : (takeReady count (w.commitTrail.gap w.commitLead)
      { w with unreportedLosses := 0 }).1.unreportedLosses = 0 :=
    congrArg Frame.unreportedLosses (frame_takeReady ..)
  rw [h.readReady_eq hs, toRead, hzero]
  change _ ≤ w.commitTrail.gap w.commitLead - _ at hgap
  unfold toRead
  omega

/-- Reading often enough leaves nothing to read. -/
theorem AtRest.hasPending_reads (h : w.AtRest) (hs : w.Sound) (live : w.isGone = false)
    {counts : List Nat} (pos : ∀ count ∈ counts, 0 < count) (enough : w.toRead ≤ counts.length) :
    (w.run (counts.map .read)).hasPending = false := by
  induction counts generalizing w with
  | nil => exact (hasPending_eq_false_iff live).2 (Nat.le_zero.1 enough)
  | cons count counts ih =>
    have hread := toRead_readReady h hs (pos count (List.mem_cons_self ..))
    obtain ⟨_, hmoves, -⟩ := readReady_spec hs count
    have later := ih (h.readReady hs count) (hmoves.sound hs) (hmoves.keeps.isGone.trans live)
      (fun c hc => pos c (List.mem_cons_of_mem count hc))
      (by rw [List.length_cons] at enough; omega)
    rw [List.map_cons, run, List.foldl_cons, step_read live]
    exact later

end Window

end ReliableMulticast
