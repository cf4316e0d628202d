import ReliableMulticast.Proofs.Advancing
import ReliableMulticast.Window.Operation

/-!
# Taking in packets and status reports

What arrives from the sender moves the window, and the notes of these moves tell what the answer
tells: a packet was stored, kept or refused exactly if the outcome says so. Nothing is delivered or
told to the reader here, and no more numbers leave undelivered than the lead can jump.
-/

namespace ReliableMulticast

/-- The outcomes of a packet that was stored. -/
def Outcome.stores : Outcome → Bool
  | .advancedWindow | .filledPlaceholder => true
  | _ => false

/-- What the notes of an input are to tell. -/
structure Note.Tally where
  packets : List Packet
  parities : List Packet
  refusals : Nat
  /-- The numbers that may be given up. -/
  gives : SeqNum → Prop
  /-- The group size stays as it is. -/
  steady : Prop
  /-- The most numbers that may leave undelivered. -/
  most : Nat

/-- Nothing is stored, kept, refused or given up. -/
def Note.Tally.quiet (most : Nat) : Tally := ⟨[], [], 0, fun _ => False, True, most⟩

/-- The notes tell what they are to tell, and of nothing that was read. -/
structure Note.Took (t : Tally) (notes : List Note) : Prop where
  packets : Note.packets notes = t.packets
  parities : Note.parities notes = t.parities
  refusals : Note.refusals notes = t.refusals
  givenUp : ∀ s ∈ Note.givenUp notes, t.gives s
  regroups : t.steady → Note.regroups notes = 0
  messages : Note.messages notes = []
  told : Note.told notes = 0
  drops : Note.drops notes ≤ t.most
  frees : Note.frees notes = []

namespace Note

theorem Took.nil (n : Nat) : Took (.quiet n) [] :=
  ⟨rfl, rfl, rfl, nofun, fun _ => rfl, rfl, rfl, Nat.zero_le n, rfl⟩

theorem Took.stored (p : Packet) (n : Nat) : Took { Tally.quiet n with packets := [p] } [.stored p] :=
  ⟨rfl, rfl, rfl, nofun, fun _ => rfl, rfl, rfl, Nat.zero_le n, rfl⟩

theorem Took.kept (p : Packet) (n : Nat) : Took { Tally.quiet n with parities := [p] } [.kept p] :=
  ⟨rfl, rfl, rfl, nofun, fun _ => rfl, rfl, rfl, Nat.zero_le n, rfl⟩

theorem Took.refused (n : Nat) : Took { Tally.quiet n with refusals := 1 } [.refused] :=
  ⟨rfl, rfl, rfl, nofun, fun _ => rfl, rfl, rfl, Nat.zero_le n, rfl⟩

theorem drops_gaveUp (numbers : List SeqNum) : drops (numbers.map .gaveUp) = 0 := by
  simp [drops, Function.comp_def]

theorem Took.gaveUp {gives : SeqNum → Prop} {numbers : List SeqNum} (h : ∀ s ∈ numbers, gives s)
    (n : Nat) : Took { Tally.quiet n with gives } (numbers.map .gaveUp) where
  packets := by simp [Note.packets, Tally.quiet]
  parities := by simp [Note.parities, Tally.quiet]
  refusals := by simp [Note.refusals, Tally.quiet, Function.comp_def]
  givenUp := by simpa [Note.givenUp, List.filterMap_map, Function.comp_def] using h
  regroups := fun _ => by simp [Note.regroups, Function.comp_def]
  messages := by simp [Note.messages]
  told := by simp [Note.told, Function.comp_def]
  drops := by simp [drops_gaveUp]
  frees := by simp [Note.frees]

/-- The group size may be set before all else. -/
theorem Took.announced {t : Tally} {notes more : List Note} (h : Took t more)
    (hn : notes = [] ∨ notes = [.regrouped]) : Took { t with steady := False } (notes ++ more) := by
  rcases hn with rfl | rfl
  · exact { h with regroups := nofun }
  · refine ⟨h.packets, h.parities, ?_, h.givenUp, nofun, h.messages, ?_, ?_, h.frees⟩
    · rw [refusals_append, h.refusals]
      exact Nat.zero_add _
    · rw [told_append, h.told]
      rfl
    · rw [drops_append]
      exact Nat.le_trans (Nat.le_of_eq (Nat.zero_add _)) h.drops

/-- Numbers that leave come before all else. -/
theorem Shed.took_append {n : Nat} {t : Tally} {notes more : List Note} (h : Shed n notes)
    (hn : n ≤ t.most) (h' : Took t more) (stay : Note.drops more = 0) : Took t (notes ++ more) := by
  obtain ⟨counts, rfl, hc⟩ := h
  have hshed : Shed n (counts.map .dropped) := ⟨counts, rfl, hc⟩
  have hdrops := hshed.drops
  refine ⟨?_, ?_, ?_, ?_, ?_, ?_, ?_, ?_, ?_⟩
  · rw [packets_append, hshed.packets, List.nil_append, h'.packets]
  · rw [parities_append, ← h'.parities]
    simp [parities]
  · rw [refusals_append, ← h'.refusals]
    simp [refusals, Function.comp_def]
  · intro s hs
    refine h'.givenUp s ?_
    simpa [givenUp, List.filterMap_map, Function.comp_def] using hs
  · intro steady
    rw [regroups_append, h'.regroups steady, hshed.regroups]
  · rw [messages_append, hshed.messages, List.nil_append, h'.messages]
  · rw [told_append, hshed.told, h'.told]
  · rw [drops_append]
    omega
  · rw [frees_append, h'.frees]
    simp [frees]

end Note

/-! ### Tallies of receipts -/

namespace Receipt

/-- How often the receipt refuses its input as malformed. -/
def refusals (r : Receipt) : Nat := if r.outcome = .malformedApdu then 1 else 0

/-- What the receipt of a data packet tells. -/
def dataTally (r : Receipt) (p : Packet) (most : Nat) : Note.Tally :=
  { Note.Tally.quiet most with
    packets := if r.outcome.stores then [p] else []
    refusals := r.refusals }

/-- What the receipt of a parity packet tells. -/
def parityTally (r : Receipt) (p : Packet) (most : Nat) : Note.Tally :=
  { Note.Tally.quiet most with
    parities := if r.consumed then [p] else []
    refusals := r.refusals }

end Receipt

namespace Window

variable {w : Window}

/-- The most numbers that leave a window when something arrives: a lead jumps by at most half of
the number space, and a window that gets its place has room for what arrives. -/
def maxJump (w : Window) : Nat := if w.isDefined then 2147483648 else 0

/-- A window gets its place at the number that arrives. -/
theorem ensureDefined_spec (h : w.Sound) (s : SeqNum) :
    w.Moves [] (w.ensureDefined s) ∧ (w.ensureDefined s).isDefined ∧
      (w.ensureDefined s).Sound ∧
      (w.isDefined = false → (w.ensureDefined s).slots.size = 0 ∧ (w.ensureDefined s).next = s) := by
  unfold ensureDefined
  split
  next hd =>
    refine ⟨.done w, hd, h, fun hu => ?_⟩
    rw [hu] at hd
    cases hd
  next hd =>
    exact ⟨(Move.define s (Bool.eq_false_iff.2 hd)).moves, rfl, h.define s,
      fun _ => ⟨rfl, SeqNum.add_zero s⟩⟩

/-- How many numbers leave a window that makes room up to `last`. -/
theorem shed_le_maxJump (h : w.Sound) (s last : SeqNum)
    (ahead : (w.ensureDefined s).next.gap last < 2147483648) (near : s.gap last + 1 ≤ w.capacity) :
    (w.ensureDefined s).slots.size + (w.ensureDefined s).next.gap last + 1 -
      (w.ensureDefined s).capacity ≤ w.maxJump := by
  obtain ⟨hmoves, -, hsound, hfresh⟩ := ensureDefined_spec h s
  have hcap : (w.ensureDefined s).capacity = w.capacity := by
    rw [hsound.capacity, h.capacity, hmoves.keeps.config]
  have hsize : (w.ensureDefined s).slots.size ≤ (w.ensureDefined s).capacity :=
    (w.ensureDefined s).slots.size_le
  unfold maxJump
  split
  · omega
  next hd =>
    obtain ⟨hzero, hnext⟩ := hfresh (Bool.eq_false_iff.2 hd)
    rw [hnext] at ahead ⊢
    omega

/-! ### Data packets -/

theorem moves_refuse (w : Window) : w.Moves [.refused] w.refuse.1 := Move.refuse.moves

/-- What a window that has its place makes of a data packet that is not malformed. -/
inductive Takes (w : Window) (p : Packet) (source : Option RepairSource) (now : Timestamp) :
    Window × Receipt → Prop
  | behind (before : p.sequence.Before w.trail) : Takes w p source now (w, .of .notInWindow)
  | ahead (after : p.sequence.After w.lead) :
      Takes w p source now ((w.extend p now).stored p .advancedWindow)
  | lost {slot : Slot} (found : w.slots.get? p.sequence = some slot) (lost : slot.state = .lost) :
      Takes w p source now (w, .of .apduLost)
  | duplicate {slot : Slot} (found : w.slots.get? p.sequence = some slot)
      (held : slot.state.hasData) :
      Takes w p source now ({ w with counters := w.counters.addDuplicate }, .of .duplicate)
  | missing {slot : Slot} (found : w.slots.get? p.sequence = some slot)
      (pending : slot.state.repairPending) :
      Takes w p source now ((w.fillSlot slot p source now).stored p .filledPlaceholder)

theorem acceptData_of_malformed {p : Packet} (malformed : w.isMalformed p)
    (source : Option RepairSource) (now : Timestamp) : w.acceptData p source now = w.refuse :=
  if_pos malformed

theorem takes_acceptData {p : Packet} (wellFormed : w.isMalformed p = false)
    (source : Option RepairSource) (now : Timestamp) :
    (w.ensureDefined p.sequence).Takes p source now (w.acceptData p source now) := by
  unfold acceptData
  rw [wellFormed, if_neg Bool.false_ne_true]
  simp only
  generalize w.ensureDefined p.sequence = w
  split
  next hbefore => exact .behind hbefore
  next hbefore =>
    split
    next hafter => exact .ahead hafter
    next hafter =>
      split
      next hnone =>
        have hsome := SlotRing.isSome_get?_iff.2 (show w.slots.Contains _ from ⟨hbefore, hafter⟩)
        rw [hnone] at hsome
        cases hsome
      next slot found =>
        split
        next hlost => exact .lost found hlost
        next hlost =>
          split
          next hdata => exact .duplicate found hdata
          next hdata => exact .missing found (SlotState.repairPending_of hlost hdata)

/-- Only a window that was shut down answers so. -/
theorem outcome_acceptData_ne (w : Window) (p : Packet) (source : Option RepairSource)
    (now : Timestamp) : (w.acceptData p source now).2.outcome ≠ .windowGone := by
  cases hm : w.isMalformed p with
  | true =>
    rw [acceptData_of_malformed hm]
    nofun
  | false =>
    have htakes := takes_acceptData hm source now
    generalize w.acceptData p source now = answer at htakes
    cases htakes <;> nofun

/-- What the answer to a data packet tells. -/
theorem moves_acceptData (h : w.Sound) (p : Packet) (source : Option RepairSource)
    (now : Timestamp) :
    ∃ notes, w.Moves notes (w.acceptData p source now).1 ∧
      Note.Took ((w.acceptData p source now).2.dataTally p w.maxJump) notes := by
  cases hm : w.isMalformed p with
  | true =>
    rw [acceptData_of_malformed hm]
    exact ⟨_, w.moves_refuse, .refused _⟩
  | false =>
    obtain ⟨hplaced, hdefined, hsound, -⟩ := ensureDefined_spec h p.sequence
    have hroom := fun ahead => shed_le_maxJump h p.sequence p.sequence ahead
      (by rw [SeqNum.gap_self]; exact Sound.capacity_pos w)
    have htakes := takes_acceptData hm source now
    generalize w.acceptData p source now = answer at htakes
    generalize w.ensureDefined p.sequence = w' at *
    cases htakes with
    | behind | lost => exact ⟨[], hplaced, .nil _⟩
    | duplicate => exact ⟨[], hplaced.silent_trans (Move.moves (.aside rfl rfl rfl rfl rfl)), .nil _⟩
    | ahead after =>
      have ahead := after_lead_iff.1 after
      obtain ⟨-, notes, hshed, hmoves⟩ := extend_spec hsound hdefined ahead now
      exact ⟨_, hplaced.silent_trans (hmoves.resolve hsound),
        hshed.took_append (hroom ahead) (.stored p _) rfl⟩
    | missing found pending =>
      have fill := Move.fill p source now found pending
      exact ⟨_, hplaced.silent_trans (fill.moves.resolve hsound), .stored p _⟩

/-! ### Parity packets -/

/-- A group in the window takes a parity packet in or not; neither counts as malformed. -/
theorem took_storeParity (w : Window) (p : Packet) {outcome : Outcome}
    (accepts : outcome ≠ .malformedApdu) (most : Nat) :
    Note.Took ((w.storeParity p outcome).2.parityTally p most)
      (if (w.storeParity p outcome).2.consumed then [.kept p] else []) := by
  have hrefusals : (w.storeParity p outcome).2.refusals = 0 := by
    have stores := w.storesParity p outcome
    generalize w.storeParity p outcome = answer at *
    cases stores with
    | lost | duplicate => rfl
    | keep => exact if_neg accepts
  unfold Receipt.parityTally
  rw [hrefusals]
  cases (w.storeParity p outcome).2.consumed with
  | true => exact .kept p most
  | false => exact .nil most

theorem moves_acceptParity (h : w.Sound) (p : Packet) (now : Timestamp) :
    ∃ notes, w.Moves notes (w.acceptParity p now).1 ∧
      Note.Took ((w.acceptParity p now).2.parityTally p w.maxJump) notes := by
  unfold acceptParity
  split
  · exact ⟨_, w.moves_refuse, .refused _⟩
  · obtain ⟨hplaced, hdefined, hsound, -⟩ := ensureDefined_spec h (w.groupFirst p.sequence)
    have hgroup : (w.ensureDefined (w.groupFirst p.sequence)).groupLast p.sequence =
        w.groupFirst p.sequence + (w.groupSize - 1) := by
      unfold ensureDefined
      split <;> rfl
    have hfirst : (w.ensureDefined (w.groupFirst p.sequence)).groupFirst p.sequence =
        w.groupFirst p.sequence := by
      unfold ensureDefined
      split <;> rfl
    have hsize := h.groupSize.2
    have hroom := fun ahead => shed_le_maxJump h (w.groupFirst p.sequence)
      (w.groupFirst p.sequence + (w.groupSize - 1)) ahead (by
        have := h.groupSize_le
        have := Sound.capacity_pos w
        unfold maxGroupSize at hsize
        rw [SeqNum.gap_add _ (by omega)]
        omega)
    simp only [hgroup, hfirst]
    generalize w.ensureDefined (w.groupFirst p.sequence) = w' at *
    split
    · exact ⟨[], hplaced, .nil _⟩
    · split
      next hafter =>
        have ahead := after_lead_iff.1 hafter
        obtain ⟨notes, hshed, hmoves⟩ := advanceLead_spec hsound hdefined ahead now
        have hsame := hmoves.groupSize_eq hshed.regroups
        have whole : ¬ ((w'.advanceLead (w.groupFirst p.sequence + (w.groupSize - 1)) now).groupLast
            p.sequence).After (w'.advanceLead (w.groupFirst p.sequence + (w.groupSize - 1)) now).lead := by
          rw [lead_advanceLead hsound hdefined ahead now, groupLast, groupFirst, groupIndex, hsame]
          change ¬ (w'.groupLast p.sequence).After _
          rw [hgroup, SeqNum.After, SeqNum.before_iff, SeqNum.gap_self]
          omega
        have hstore := moves_storeParity (hmoves.sound hsound) p .advancedWindow whole
        refine ⟨_, hplaced.silent_trans (hmoves.trans hstore),
          hshed.took_append (hroom ahead) (took_storeParity _ p (by decide) _) ?_⟩
        split <;> rfl
      next hwithin =>
        exact ⟨_, hplaced.silent_trans (moves_storeParity hsound p .ok (hgroup ▸ hwithin)),
          took_storeParity _ p (by decide) _⟩

/-! ### Status reports -/

theorem moves_followLead (h : w.Sound) (defined : w.isDefined) (lead : SeqNum) (now : Timestamp) :
    ∃ notes, w.Moves notes (w.followLead lead now).1 ∧ Note.Shed w.maxJump notes := by
  unfold followLead
  split
  next hafter =>
    have ahead := after_lead_iff.1 hafter
    obtain ⟨notes, hshed, hmoves⟩ := advanceLead_spec h defined ahead now
    refine ⟨notes, hmoves, hshed.mono ?_⟩
    have hsize : w.slots.size ≤ w.capacity := w.slots.size_le
    rw [maxJump, if_pos defined]
    omega
  · exact ⟨[], .done w, .nil _⟩

/-- The number is missing and lies behind a trail that the sender reports, which has moved on. -/
def PassedBySender (w : Window) (trail lead : SeqNum) (size shift : Nat) (now : Timestamp)
    (s : SeqNum) : Prop :=
  let followed := ((w.announceGroups size shift).followLead lead now).1
  w.isDefined ∧ ¬ lead.next.Before trail ∧
    trail.After followed.senderTrail ∧ s ∈ followed.pendingBefore trail

/-- What the receipt of a status report tells. -/
def statusTally (w : Window) (trail lead : SeqNum) (size shift : Nat) (now : Timestamp) :
    Note.Tally :=
  { Note.Tally.quiet w.maxJump with
    refusals := (w.acceptStatus trail lead size shift now).2.refusals
    gives := w.PassedBySender trail lead size shift now
    steady := False }

theorem outcome_followLead (w : Window) (lead : SeqNum) (now : Timestamp) :
    (w.followLead lead now).2 ≠ .malformedApdu := by
  unfold followLead
  split <;> nofun

/-- What follows after the group size was announced leaves it alone. -/
theorem moves_of_announced (h : w.Sound) {trail lead : SeqNum} (wellFormed : ¬ lead.next.Before trail)
    (size shift : Nat) (now : Timestamp) :
    ∃ notes, (w.announceGroups size shift).Moves notes (w.acceptStatus trail lead size shift now).1 ∧
      Note.Took { w.statusTally trail lead size shift now with steady := True } notes := by
  have hsound := h.announceGroups size shift
  have hsame : (w.announceGroups size shift).maxJump = w.maxJump ∧
      (w.announceGroups size shift).isDefined = w.isDefined := by
    rcases w.announceGroups_cases size shift with he | ⟨-, -, he⟩ <;> rw [he] <;> exact ⟨rfl, rfl⟩
  unfold statusTally PassedBySender acceptStatus
  rw [if_neg wellFormed]
  generalize w.announceGroups size shift = announced at *
  simp only
  split
  next hd =>
    rw [Bool.not_eq_true'] at hd
    have define := Move.define lead.next hd
    exact ⟨[], define.moves.silent_trans (Move.moves (.aside rfl rfl rfl rfl rfl)),
      { Note.Took.nil _ with givenUp := nofun }⟩
  next hd =>
    have defined : announced.isDefined := by simpa using hd
    obtain ⟨notes, hmoves, hshed⟩ := moves_followLead hsound defined lead now
    have houtcome := announced.outcome_followLead lead now
    obtain ⟨numbers, htrail, hgiven⟩ := moves_followTrail (hmoves.sound hsound) trail
    rw [hsame.1] at hshed
    rw [show (Receipt.of (announced.followLead lead now).2).refusals = 0 from if_neg houtcome]
    have hpassed : ∀ s ∈ numbers, w.isDefined ∧ ¬ lead.next.Before trail ∧ _ ∧ _ :=
      fun s hs => ⟨hsame.2.symm.trans defined, wellFormed, hgiven s hs⟩
    exact ⟨_, (hmoves.trans htrail).resolve hsound,
      hshed.took_append (Nat.le_refl _) (.gaveUp hpassed _) (Note.drops_gaveUp numbers)⟩

theorem acceptStatus_of_malformed {trail lead : SeqNum} (malformed : lead.next.Before trail)
    (size shift : Nat) (now : Timestamp) : w.acceptStatus trail lead size shift now = w.refuse :=
  if_pos malformed

theorem moves_acceptStatus (h : w.Sound) (trail lead : SeqNum) (size shift : Nat)
    (now : Timestamp) :
    ∃ notes, w.Moves notes (w.acceptStatus trail lead size shift now).1 ∧
      Note.Took (w.statusTally trail lead size shift now) notes := by
  by_cases malformed : lead.next.Before trail
  · unfold statusTally
    rw [acceptStatus_of_malformed malformed]
    exact ⟨_, w.moves_refuse, { Note.Took.refused _ with givenUp := nofun, regroups := nofun }⟩
  · obtain ⟨first, hannounced, hfirst⟩ := w.moves_announceGroups size shift
    obtain ⟨notes, hmoves, htook⟩ := moves_of_announced h malformed size shift now
    exact ⟨_, hannounced.trans hmoves, htook.announced hfirst⟩

end Window

end ReliableMulticast
