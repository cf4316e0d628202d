import ReliableMulticast.Proofs.Stillness

/-!
# The life of a slot

The state of a slot only moves on: a packet that is missing is asked for, arrives or is given up, one
that arrived is delivered or given up, and one that was delivered stays so. What a slot holds is what
was stored in it first. Every move keeps this of the slots that it leaves in the window
(`Turns.lives`), and an operation keeps it of the slots that are there before and after it, as these
were there all the time (`lives_step`). Only a repair takes in several packets, so only a repair of
numbers far apart can let a number go and bring it back (`not_onward_around`).
-/

namespace ReliableMulticast

/-! ### The states of a slot -/

namespace SlotState

variable {s t u : SlotState}

theorem Onward.refl (s : SlotState) : s.Onward s := Relation.ReflTransGen.refl

theorem Next.onward (h : s.Next t) : s.Onward t := Relation.ReflTransGen.single h

theorem Onward.trans (h : s.Onward t) (h' : t.Onward u) : s.Onward u :=
  Relation.ReflTransGen.trans h h'

/-- What was given up stays so. -/
theorem Onward.lost (h : s.Onward t) (hs : s = .lost) : t = .lost := by
  induction h with
  | refl => exact hs
  | tail _ next ih =>
    subst ih
    cases next with
    | keep pending | fill pending => cases pending
    | lose => rfl

/-- Data that arrived stays or is given up. -/
theorem Onward.hasData (h : s.Onward t) (hs : s.hasData) : t.hasData ∨ t = .lost := by
  induction h with
  | refl => exact .inl hs
  | tail _ next ih =>
    cases next with
    | request | confirm => simp [SlotState.hasData] at ih
    | keep pending =>
      rcases ih with hd | rfl
      · cases (SlotState.hasData_iff.1 hd).2.symm.trans pending
      · cases pending
    | fill | deliver | retain => exact .inl rfl
    | lose => exact .inr rfl

/-- What was delivered stays so. -/
theorem Onward.delivered (h : s.Onward t) (hs : s.delivered) : t.delivered := by
  induction h with
  | refl => exact hs
  | tail _ next ih =>
    cases next with
    | keep pending | fill pending =>
      cases (not_delivered_of_repairPending pending).symm.trans ih
    | deliver | retain => rfl
    | lose undelivered =>
      rcases undelivered with pending | rfl
      · cases (not_delivered_of_repairPending pending).symm.trans ih
      · cases ih
    | request | confirm => cases ih

/-- Data that is there in the end was there from when it arrived. -/
theorem Onward.hasData_of_hasData (h : s.Onward t) (h' : t.Onward u) (hs : s.hasData)
    (hu : u.hasData) : t.hasData :=
  (h.hasData hs).resolve_right fun hl => (hasData_iff.1 hu).1 (h'.lost hl)

/-- What is given up was missing or held. -/
theorem onward_lost (h : s.delivered = false) : s.Onward .lost := by
  cases s with
  | lost => exact .refl _
  | haveData => exact Next.onward (.lose (.inr rfl))
  | committed | retained => cases h
  | backOff | waitNcf | waitData | haveParity => exact Next.onward (.lose (.inl rfl))

theorem onward_haveParity (pending : s.repairPending) : s.Onward .haveParity := by
  by_cases h : s = .haveParity
  · rw [h]
    exact .refl _
  · exact Next.onward (.keep pending h)

end SlotState

/-! ### What happens to a slot -/

@[simp] theorem Slot.created_lose (slot : Slot) : slot.lose.created = slot.created := by
  unfold lose
  split <;> rfl

/-- The slot of number `x` lives on: its state moves on, what it has it keeps, and what it gets is one
of the packets that were stored. -/
structure Slot.Lives (x : SeqNum) (stored : List Packet) (old new : Slot) : Prop where
  onward : old.state.Onward new.state
  created : new.created = old.created
  fragment : old.state.hasData → new.state.hasData → new.fragment = old.fragment
  payload : old.state.hasData → new.state.hasData → new.payload = old.payload
  filled : old.state.repairPending → new.state.hasData →
    ∃ p ∈ stored, p.sequence = x ∧ new.Carries p

namespace Slot.Lives

variable {x : SeqNum} {stored more : List Packet} {old mid new : Slot}

/-- What becomes of a slot that has no data in the end. -/
theorem of_bare (onward : old.state.Onward new.state) (created : new.created = old.created)
    (bare : new.state.hasData = false) : old.Lives x stored new where
  onward := onward
  created := created
  fragment := fun _ hd => by cases bare.symm.trans hd
  payload := fun _ hd => by cases bare.symm.trans hd
  filled := fun _ hd => by cases bare.symm.trans hd

/-- What becomes of a slot whose contents stay. -/
theorem of_same (onward : old.state.Onward new.state) (created : new.created = old.created)
    (fragment : new.fragment = old.fragment) (payload : new.payload = old.payload)
    (held : new.state.hasData → old.state.hasData) : old.Lives x stored new where
  onward := onward
  created := created
  fragment := fun _ _ => fragment
  payload := fun _ _ => payload
  filled := fun hp hd => by cases (SlotState.hasData_iff.1 (held hd)).2.symm.trans hp

theorem refl (x : SeqNum) (stored : List Packet) (slot : Slot) : slot.Lives x stored slot :=
  .of_same (.refl _) rfl rfl rfl id

theorem commit (held : old.state = .haveData) : old.Lives x stored old.commit := by
  refine .of_same ?_ rfl rfl rfl fun _ => ?_ <;> rw [held]
  · exact SlotState.Next.onward .deliver
  · rfl

theorem trans (h : old.Lives x stored mid) (h' : mid.Lives x more new) :
    old.Lives x (stored ++ more) new where
  onward := h.onward.trans h'.onward
  created := h'.created.trans h.created
  fragment := fun hs hd => by
    have held := h.onward.hasData_of_hasData h'.onward hs hd
    exact (h'.fragment held hd).trans (h.fragment hs held)
  payload := fun hs hd => by
    have held := h.onward.hasData_of_hasData h'.onward hs hd
    exact (h'.payload held hd).trans (h.payload hs held)
  filled := fun hp hd => by
    simp only [List.mem_append]
    by_cases hmid : mid.state.repairPending
    · obtain ⟨p, hp, hx, hcarries⟩ := h'.filled hmid hd
      exact ⟨p, .inr hp, hx, hcarries⟩
    · have alive : mid.state ≠ .lost := fun hl =>
        (SlotState.hasData_iff.1 hd).1 (h'.onward.lost hl)
      have held := SlotState.hasData_iff.2 ⟨alive, Bool.eq_false_iff.2 hmid⟩
      obtain ⟨p, hp, hx, hcarries⟩ := h.filled hp held
      exact ⟨p, .inl hp, hx, (h'.payload held hd).trans hcarries.payload,
        (h'.fragment held hd).trans hcarries.fragment⟩

end Slot.Lives

/-- What freeing leaves of a slot: delivered data may be retained or dropped. -/
structure Slot.Frees (old new : Slot) : Prop where
  state : new.state = old.state ∨ old.state = .committed ∧ new.state = .retained
  created : new.created = old.created
  fragment : new.fragment = old.fragment
  payload : new.payload = old.payload ∨ old.state = .committed ∧ new.payload = none

namespace Slot.Frees

variable {x : SeqNum} {stored : List Packet} {old mid new : Slot}

theorem refl (slot : Slot) : slot.Frees slot := ⟨.inl rfl, rfl, rfl, .inl rfl⟩

theorem trans (h : old.Frees mid) (h' : mid.Frees new) : old.Frees new where
  state := by
    rcases h'.state with hsame | ⟨hc, hr⟩
    · rw [hsame]
      exact h.state
    · refine .inr ⟨?_, hr⟩
      rcases h.state with hsame | ⟨hc, -⟩
      · exact hsame.symm.trans hc
      · exact hc
  created := h'.created.trans h.created
  fragment := h'.fragment.trans h.fragment
  payload := by
    rcases h'.payload with hsame | ⟨hc, hnone⟩
    · rw [hsame]
      exact h.payload
    · refine .inr ⟨?_, hnone⟩
      rcases h.state with hsame | ⟨hc', -⟩
      · exact hsame.symm.trans hc
      · exact hc'

theorem retain (slot : Slot) : slot.Frees slot.retain := by
  rcases slot.retain_cases with he | ⟨hc, he⟩ <;> rw [he]
  · exact .refl slot
  · exact ⟨.inr ⟨hc, rfl⟩, rfl, rfl, .inl rfl⟩

theorem dropPayload (slot : Slot) : slot.Frees slot.dropPayload := by
  rcases slot.dropPayload_cases with he | ⟨hc, he⟩ <;> rw [he]
  · exact .refl slot
  · exact ⟨.inl rfl, rfl, rfl, .inr ⟨hc, rfl⟩⟩

theorem onward (h : old.Frees new) : old.state.Onward new.state := by
  rcases h.state with hs | ⟨hs, hs'⟩
  · rw [hs]
    exact .refl _
  · rw [hs, hs']
    exact SlotState.Next.onward .retain

end Slot.Frees

namespace Window

variable {w w' : Window} {notes : List Note} {x : SeqNum} {old new : Slot}

/-! ### Moves -/

/-- A slot that is given up with another one ahead of the reader was not delivered. -/
theorem TakesAlong.undelivered {s : SeqNum} (along : w.TakesAlong s x) (h : w.Sound)
    (ahead : w.Ahead s) (hold : w.slots.get? x = some old) : old.state.delivered = false := by
  have hx : w.Ahead x := by
    rcases along with rfl | ⟨slot, f, other, -, -, hspread, -⟩
    · exact ahead
    · exact ahead_of_mem_spread h ahead hspread
  exact (h.slots hold).undelivered (Nat.not_lt.2 (h.ahead_iff.1 hx).1)

/-- A slot lives on through every move but that which frees it. -/
theorem Turns.lives (ht : w.Turns w' x old notes new) (h : w.Sound)
    (hold : w.slots.get? x = some old) (kept : Note.frees notes = []) :
    old.Lives x (Note.packets notes) new := by
  have lost : old.state.delivered = false → old.Lives x (Note.packets notes) old.lose :=
    fun undelivered => .of_bare (by rw [old.state_lose]; exact SlotState.onward_lost undelivered)
      old.created_lose (by rw [old.state_lose]; rfl)
  cases ht with
  | same => exact .refl x _ old
  | fill p fromParity pending here =>
    refine ⟨SlotState.Next.onward (.fill pending), rfl, fun hs => ?_, fun hs => ?_,
      fun _ _ => ⟨p, List.mem_singleton_self p, here, rfl, rfl⟩⟩
    all_goals cases (SlotState.hasData_iff.1 hs).2.symm.trans pending
  | wait pending waits =>
    refine .of_bare (waits.onward pending) waits.created (Bool.eq_false_iff.2 fun hd => ?_)
    cases (SlotState.hasData_iff.1 hd).2.symm.trans (waits.pending pending)
  | keep p pending => exact .of_bare (SlotState.onward_haveParity pending) rfl rfl
  | lose s ahead along => exact lost (along.undelivered h ahead hold)
  | spoil found held fragment here broken along =>
    exact lost (along.undelivered h (h.ahead_of_commitLead found) hold)
  | orphan front held =>
    refine lost ?_
    rw [held]
    rfl
  | commit m held => exact .commit held
  | retain =>
    rcases old.retain_cases with he | ⟨hc, he⟩ <;> rw [he]
    · exact .refl x _ old
    · refine .of_same ?_ rfl rfl rfl fun _ => ?_ <;> rw [hc]
      · exact SlotState.Next.onward .retain
      · rfl
  | free => cases kept

/-- Slots that are in the window before and after moves that do not go far live on. -/
theorem Moves.lives (hm : w.Moves notes w') (h : w.Sound) (defined : w.isDefined)
    (near : Note.advance notes ≤ 2147483648) (kept : Note.frees notes = [])
    (hold : w.slots.get? x = some old) (hnew : w'.slots.get? x = some new) :
    old.Lives x (Note.packets notes) new := by
  induction hm generalizing old with
  | done w =>
    obtain rfl := Option.some.inj (hold.symm.trans hnew)
    exact .refl x [] old
  | next first later ih =>
    have hx := contains_iff_place.2 (place_lt_of_get? hold)
    have between := first.moves.contains_between later h defined near hx
      (contains_iff_place.2 (place_lt_of_get? hnew))
    obtain ⟨mid, hmid⟩ := Option.isSome_iff_exists.1 (SlotRing.isSome_get?_iff.2 between)
    obtain ⟨old', hold', hturns⟩ := first.exists_turns h hx hmid
    obtain rfl := Option.some.inj (hold'.symm.trans hold)
    rw [Note.advance_append] at near
    rw [Note.frees_append, List.append_eq_nil_iff] at kept
    rw [Note.packets_append]
    exact (hturns.lives h hold kept.1).trans
      (ih (first.sound h) (first.keeps.isDefined defined) (by omega) kept.2 hmid hnew)

/-! ### Steps -/

/-- What a read takes lives on, and so does all that it leaves. -/
theorem lives_readReady (h : w.Sound) (count : Nat) (hold : w.slots.get? x = some old)
    (hnew : (w.readReady count).1.slots.get? x = some new) : old.Lives x [] new := by
  obtain ⟨notes, hmoves, -⟩ := takeReady_spec (w.commitTrail.gap w.commitLead) count h.report
  have htaken := hmoves.sound h.report
  obtain ⟨mid, hmid, -⟩ := (onlyLoses_resolve _).slots hnew
  obtain ⟨old', hold', hread⟩ := get?_takeReady_cases _ _ h.report hmid
  obtain rfl := Option.some.inj (hold'.symm.trans hold)
  have taken : old'.Lives x [] mid := by
    rcases hread with rfl | ⟨held, rfl⟩
    · exact .refl x [] mid
    · exact .commit held
  exact taken.trans ((moves_resolve htaken).lives htaken (htaken.isDefined_of_get? hmid)
    (Nat.zero_le _) rfl hmid hnew)

theorem get?_freeDelivered_cases (hnew : w.freeDelivered.slots.get? x = some new) :
    ∃ old, w.slots.get? x = some old ∧ old.Frees new := by
  unfold freeDelivered at hnew
  generalize w.trail.upTo w.commitTrail = numbers at hnew
  induction numbers generalizing w with
  | nil => exact ⟨new, hnew, .refl new⟩
  | cons s numbers ih =>
    obtain ⟨mid, hmid, hfrees⟩ := ih hnew
    obtain ⟨old, hold, ⟨-, rfl⟩ | ⟨-, rfl⟩⟩ := get?_modify_cases _ hmid
    · exact ⟨mid, hold, hfrees⟩
    · have freed : old.Frees
          ((if w.isRetained s then Slot.retain else Slot.dropPayload) old) := by
        split
        · exact .retain old
        · exact .dropPayload old
      refine ⟨old, hold, Slot.Frees.trans ?_ hfrees⟩
      exact ⟨freed.state, freed.created, freed.fragment, freed.payload⟩

/-- A slot lives on through every step but that which frees it. -/
theorem lives_step (h : w.Sound) (live : w.isGone = false) {op : Op} (part : op.isPart)
    (unfreed : op ≠ .free) (hold : w.slots.get? x = some old)
    (hnew : (w.step op).1.slots.get? x = some new) :
    old.Lives x (op.accepted (w.step op).2) new := by
  by_cases hread : ∃ count, op = .read count
  · obtain ⟨count, rfl⟩ := hread
    rw [step_read live] at hnew
    exact lives_readReady h count hold hnew
  · by_cases hshut : op = .shutdown
    · subst hshut
      simp only [step, shutdown, live] at hnew
      cases (SlotRing.get?_reset ..).symm.trans hnew
    · obtain ⟨notes, hmoves, htells⟩ := step_spec_of_ne h live part hshut
      rw [← htells.packets]
      exact hmoves.lives h (h.isDefined_of_get? hold)
        (htells.advance_le fun count hop => hread ⟨count, hop⟩) (htells.frees unfreed) hold hnew

/-! ### Repairs -/

/-- The window moves on, if at all, until the packet is its lead. -/
def LedBy (w w' : Window) (p : Packet) : Prop :=
  ∃ count, w.MovedOn w' count ∧
    (count + w'.slots.size = w.slots.size ∨
      w.next.gap p.sequence < 2147483648 ∧ w'.next = p.sequence.next ∧
        count + w'.slots.size = w.slots.size + (w.next.gap p.sequence + 1))

theorem ledBy_extend (h : w.Sound) (defined : w.isDefined) {p : Packet}
    (ahead : w.next.gap p.sequence < 2147483648) (now : Timestamp) :
    w.LedBy (w.extend p now) p := by
  obtain ⟨found, notes, hshed, hmoves⟩ := extend_spec h defined ahead now
  have hsize' := (hmoves.sound h).size_le
  obtain ⟨count, hmoved, hcount⟩ := hmoves.exists_movedOn h defined
  have hnext := next_extend h defined ahead now
  generalize w.extend p now = w' at *
  refine ⟨count, hmoved, .inr ⟨ahead, hnext, ?_⟩⟩
  have hle : count ≤ w.slots.size + (w.next.gap p.sequence + 1) := by
    have hcapacity : w.slots.size ≤ w.capacity := w.slots.size_le
    have hct := h.place_commitTrail_le
    have hdrops := hshed.drops
    have hpasses := Note.passes_le_told notes
    rw [hshed.told] at hpasses
    have hadvance : Note.advance (notes ++ [.stored p]) = Note.drops notes := by
      rw [Note.advance_append, Note.advance, hshed.messages]
      simp only [List.map_nil, List.sum_nil]
      have : Note.advance [.stored p] = 0 := rfl
      omega
    omega
  -- both sides lead from the old trail to the number after the packet
  have hsize := h.size_le
  have hway : w.trail + (count + w'.slots.size) =
      w.trail + (w.slots.size + (w.next.gap p.sequence + 1)) := by
    have hleft : w'.trail + w'.slots.size = p.sequence.next := hnext
    have hright : w.trail + w.slots.size = w.next := rfl
    rw [← SeqNum.add_add, ← hmoved.trail, hleft, ← SeqNum.add_add, hright, ← SeqNum.add_add,
      SeqNum.add_gap]
    rfl
  have := congrArg (·.raw.toNat) hway
  simp only [SeqNum.toNat_add] at this
  omega

theorem LedBy.of_frame_eq {v : Window} {p : Packet} (h : w.LedBy v p)
    (hf : w'.frame = { v.frame with commitLead := w'.commitLead }) : w.LedBy w' p := by
  have htrail : w'.trail = v.trail := congrArg Frame.trail hf
  have hsize : w'.slots.size = v.slots.size := congrArg Frame.size hf
  have hnext : w'.next = v.next := by
    change w'.trail + w'.slots.size = v.trail + v.slots.size
    rw [htrail, hsize]
  obtain ⟨count, ⟨hmoved, hle⟩, hwhere⟩ := h
  refine ⟨count, ⟨htrail.trans hmoved, by rwa [hsize]⟩, ?_⟩
  rwa [hsize, hnext]

theorem LedBy.still {p : Packet} (hf : w'.frame = w.frame) : w.LedBy w' p :=
  ⟨0, .of_frame_eq hf, .inl (by rw [Nat.zero_add]; exact congrArg Frame.size hf)⟩

theorem ledBy_pushRepair (h : w.Sound) (live : w.isGone = false) (defined : w.isDefined)
    (p : Packet) (source : RepairSource) (now : Timestamp) :
    w.LedBy (w.pushRepair p source now).1 p := by
  unfold pushRepair forSession
  split
  · exact .still rfl
  rw [whileLive_of_live live]
  cases hm : w.isMalformed p with
  | true =>
    rw [acceptData_of_malformed hm]
    exact .still rfl
  | false =>
    have htakes := takes_acceptData hm (some source) now
    rw [ensureDefined, if_pos defined] at htakes
    generalize w.acceptData p (some source) now = answer at htakes
    cases htakes with
    | behind | lost | duplicate => exact .still rfl
    | ahead after =>
      exact (ledBy_extend h defined (after_lead_iff.1 after) now).of_frame_eq (frame_resolve _)
    | @missing slot =>
      have filled : w.LedBy (w.fillSlot slot p (some source) now) p :=
        .still (frame_modify w p.sequence _)
      exact filled.of_frame_eq (frame_resolve _)

/-- The window has moved on by `count` numbers, and no further than packets take it whose numbers are
among the `2 ^ 30` ones from `m` on. -/
structure Strayed (w v : Window) (m : SeqNum) (count : Nat) : Prop where
  moved : w.MovedOn v count
  near : count + v.slots.size ≤ w.slots.size ∨ ∃ n < 1073741824, v.next = m + (n + 1) ∧
    count + v.slots.size ≤ w.slots.size + 2147483648 + n

variable {v : Window} {m : SeqNum} {count more : Nat}

theorem Strayed.refl (w : Window) (m : SeqNum) : w.Strayed w m 0 :=
  ⟨.of_frame_eq rfl, .inl (Nat.le_of_eq (Nat.zero_add _))⟩

theorem Strayed.ledBy {p : Packet} (h : w.Strayed v m count) (hf : v.LedBy w' p)
    (hp : m.gap p.sequence < 1073741824) :
    ∃ more, v.MovedOn w' more ∧ w.Strayed w' m (count + more) := by
  obtain ⟨more, hmoved, hwhere⟩ := hf
  refine ⟨more, hmoved, h.moved.trans hmoved, ?_⟩
  rcases hwhere with hsize | ⟨hahead, hnext, hsize⟩
  · have hnext : w'.next = v.next := by
      change w'.trail + w'.slots.size = v.trail + v.slots.size
      rw [hmoved.trail, SeqNum.add_add, hsize]
    rw [hnext]
    refine h.near.imp (fun hnear => by omega) ?_
    rintro ⟨n, hn, hlead, hnear⟩
    exact ⟨n, hn, hlead, by omega⟩
  · refine .inr ⟨m.gap p.sequence, hp, ?_, ?_⟩
    · rw [hnext, ← SeqNum.add_next, SeqNum.add_gap]
    · rcases h.near with hnear | ⟨n, hn, hlead, hnear⟩
      · omega
      · -- the packet is ahead of the lead, so it lies further from `m` than the lead does
        have := congrArg (·.raw.toNat) hlead
        have := m.toNat_lt
        have := p.sequence.toNat_lt
        simp only [SeqNum.gap_eq, SeqNum.toNat_add] at *
        omega

theorem Strayed.step (h : w.Strayed v m count) (hs : v.Sound) (live : v.isGone = false)
    (defined : v.isDefined) (p : Packet) (hp : m.gap p.sequence < 1073741824) (now : Timestamp) :
    let next := (v.step (.pushRepair p .parity now)).1
    next.Sound ∧ next.isGone = false ∧ next.isDefined ∧
      ∃ more, v.MovedOn next more ∧ w.Strayed next m (count + more) := by
  have part : (Op.pushRepair p .parity now).isPart := rfl
  obtain ⟨notes, hmoves, -⟩ := step_spec_of_ne hs live part nofun
  exact ⟨hmoves.sound hs, hmoves.keeps.isGone.trans live, hmoves.keeps.isDefined defined,
    h.ledBy (ledBy_pushRepair hs live defined p .parity now) hp⟩

/-- One packet after the other, a repair does not take the window further than that. -/
theorem Strayed.run {g : Group} {decode : Decoder} {now : Timestamp} {numbers : List SeqNum}
    (h : w.Strayed v m count) (hs : v.Sound) (live : v.isGone = false) (defined : v.isDefined)
    (near : ∀ s ∈ numbers, m.gap s < 1073741824) :
    ∃ more, v.MovedOn (v.run (Op.repairs g decode now numbers)) more ∧
      w.Strayed (v.run (Op.repairs g decode now numbers)) m (count + more) := by
  induction numbers generalizing v count with
  | nil => exact ⟨0, .of_frame_eq rfl, h⟩
  | cons s numbers ih =>
    rw [Op.repairs]
    split
    · exact ⟨0, .of_frame_eq rfl, h⟩
    next payload _ =>
      obtain ⟨hs', live', defined', first, hfirst, hstrayed⟩ :=
        h.step hs live defined ⟨g.tsi, s, none, payload⟩ (near s (List.mem_cons_self ..)) now
      obtain ⟨later, hlater, hstrayed'⟩ := ih hstrayed hs' live' defined'
        fun x hx => near x (List.mem_cons_of_mem s hx)
      exact ⟨first + later, hfirst.trans hlater, Nat.add_assoc .. ▸ hstrayed'⟩

/-- The window holds few numbers, so none comes back that it left so near. -/
theorem Strayed.not_contains (h : w.Strayed w' m (count + more)) (hw : w.Sound)
    (hmoved : v.MovedOn w' more) (behind : v.place x < more) : ¬ w'.slots.Contains x := by
  have hsize := hw.size_le
  refine hmoved.not_contains behind ?_
  rcases h.near with hnear | ⟨n, hn, -, hnear⟩ <;> omega

/-- A slot that is in the window before and after a repair lives on through it. -/
theorem Strayed.lives {g : Group} {decode : Decoder} {now : Timestamp} {numbers : List SeqNum}
    (h : w.Strayed v m count) (hw : w.Sound) (hs : v.Sound) (live : v.isGone = false)
    (near : ∀ s ∈ numbers, m.gap s < 1073741824) (hold : v.slots.get? x = some old)
    (hnew : (v.run (Op.repairs g decode now numbers)).slots.get? x = some new) :
    old.Lives x (v.accepted (Op.repairs g decode now numbers)) new := by
  induction numbers generalizing v count old with
  | nil =>
    obtain rfl := Option.some.inj (hold.symm.trans hnew)
    exact .refl x _ old
  | cons s numbers ih =>
    rw [Op.repairs] at hnew ⊢
    split at hnew
    · obtain rfl := Option.some.inj (hold.symm.trans hnew)
      exact .refl x _ old
    next payload _ =>
      obtain ⟨hs', live', defined', first, hfirst, hstrayed⟩ := h.step hs live
        (hs.isDefined_of_get? hold) ⟨g.tsi, s, none, payload⟩ (near s (List.mem_cons_self ..)) now
      have near' := fun y hy => near y (List.mem_cons_of_mem s hy)
      obtain ⟨later, hlater, hstrayed'⟩ := hstrayed.run hs' live' defined' near'
      -- the number does not leave with the first packet, for then it would not be there in the end
      have between := hfirst.contains (contains_iff_place.2 (place_lt_of_get? hold)) <|
        Nat.le_of_not_lt fun behind =>
          (Nat.add_assoc count first later ▸ hstrayed').not_contains hw (hfirst.trans hlater)
            (Nat.lt_of_lt_of_le behind (Nat.le_add_right ..))
            (contains_iff_place.2 (place_lt_of_get? hnew))
      obtain ⟨mid, hmid⟩ := Option.isSome_iff_exists.1 (SlotRing.isSome_get?_iff.2 between)
      have part : (Op.pushRepair ⟨g.tsi, s, none, payload⟩ .parity now).isPart := rfl
      have lives := lives_step hs live part (fun freed => by cases freed) hold hmid
      exact lives.trans (ih hstrayed hs' live' near' hmid hnew)

/-- The missing members of a group that is repaired lie within `2 ^ 30` numbers of each other. -/
def Op.IsNarrow : Op → Prop
  | .repair g _ _ => ∃ m : SeqNum, ∀ s ∈ g.missing, m.gap s < 1073741824
  | _ => True

/-- A slot lives on through every operation but that which frees it. -/
theorem lives_op (h : w.Sound) (live : w.isGone = false) {op : Op} (narrow : op.IsNarrow)
    (unfreed : op ≠ .free) (hold : w.slots.get? x = some old)
    (hnew : (w.step op).1.slots.get? x = some new) : old.Lives x (w.accepted op.parts) new := by
  by_cases part : op.isPart
  · have haccepted : w.accepted [op] = op.accepted (w.step op).2 := List.flatMap_singleton ..
    rw [Op.parts_of_isPart part, haccepted]
    exact lives_step h live part unfreed hold hnew
  · cases op with
    | repair g decode now =>
      obtain ⟨m, near⟩ := narrow
      have hrun : w.run (Op.repairs g decode now g.missing) = (w.step (.repair g decode now)).1 :=
        w.run_repairs g decode now g.missing
      rw [← hrun] at hnew
      exact (Strayed.refl w m).lives h h live near hold hnew
    | _ => exact absurd rfl part

/-! ### Histories -/

/-- Slots live on: what an operation makes of a slot that is in the window before and after it. -/
theorem slot_lives_on (tsi : Tsi) (config : ValidConfig) {ops : List Op} {op : Op} {s : SeqNum}
    {old new : Slot} (narrow : op.IsNarrow)
    (found : ((create tsi config).run ops).slots.get? s = some old)
    (found' : (((create tsi config).run ops).step op).1.slots.get? s = some new) :
    old.state.Onward new.state ∧ (old.state = .lost → new.state = .lost) ∧
      (old.state.hasData → new.state.repairPending = false) ∧
      (old.state.delivered → new.state.delivered) ∧ new.created = old.created ∧
      (old.state.hasData → new.state.hasData → new.fragment = old.fragment ∧
        (new.payload = old.payload ∨
          op = .free ∧ old.state = .committed ∧ new.payload = none)) ∧
      (old.state.repairPending → new.state.hasData →
        ∃ p ∈ ((create tsi config).run ops).accepted op.parts,
          p.sequence = s ∧ new.Carries p) := by
  have live : ((create tsi config).run ops).isGone = false := by
    refine Bool.eq_false_iff.2 fun gone => ?_
    cases (get?_of_gone tsi config gone s).symm.trans found
  have h := (sound_run (sound_create tsi config) live).1
  generalize (create tsi config).run ops = w at *
  have settled : old.state.Onward new.state → old.state.hasData →
      new.state.repairPending = false := fun onward held => by
    rcases onward.hasData held with hd | hl
    · exact (SlotState.hasData_iff.1 hd).2
    · rw [hl]
      rfl
  by_cases freed : op = .free
  · subst freed
    simp only [step, free, live] at found'
    obtain ⟨old', hold', hfrees⟩ := get?_freeDelivered_cases found'
    obtain rfl := Option.some.inj (hold'.symm.trans found)
    have onward := hfrees.onward
    refine ⟨onward, onward.lost, settled onward, onward.delivered, hfrees.created,
      fun _ _ => ⟨hfrees.fragment, hfrees.payload.imp_right fun hp => ⟨rfl, hp⟩⟩, fun hp hd => ?_⟩
    rcases hfrees.state with hs | ⟨hs, -⟩
    · cases (SlotState.hasData_iff.1 (hs ▸ hd)).2.symm.trans hp
    · rw [hs] at hp
      cases hp
  · have lives := lives_op h live narrow freed found found'
    exact ⟨lives.onward, lives.onward.lost, settled lives.onward, lives.onward.delivered,
      lives.created, fun hs hd => ⟨lives.fragment hs hd, .inl (lives.payload hs hd)⟩, lives.filled⟩

/-- A group with missing members and nothing else. -/
def bareGroup (missing : List SeqNum) : Group where
  tsi := smallTsi
  first := 0
  members := missing.map fun s => ⟨s, none⟩
  parity := []

/-- The same payload for all missing members. -/
def constantDecoder : Decoder := fun _ _ => .ok ⟨#[9]⟩

theorem exists_slot {w : Window} {x : SeqNum} {state : SlotState}
    (h : w.slotIs x (·.state = state)) : ∃ slot, w.slots.get? x = some slot ∧ slot.state = state := by
  obtain ⟨slot, found, hstate⟩ := (Option.any_eq_true _ _).1 h
  exact ⟨slot, found, by simpa using hstate⟩

/-- A member that keeps a parity packet is filled by the repair of its group. -/
theorem slot_lives_on_small :
    let w := (create smallTsi smallConfig).run [smallPush 0 none 1, smallParity 0]
    let op := Op.repair (bareGroup [1]) constantDecoder 5
    op.IsNarrow ∧ ∃ old new, w.slots.get? 1 = some old ∧ (w.step op).1.slots.get? 1 = some new ∧
      old.state = .haveParity ∧ new.state = .haveData ∧ old.state.Onward new.state ∧
        new.created = old.created ∧ ∃ p ∈ w.accepted op.parts, p.sequence = 1 ∧ new.Carries p := by
  have before : ((create smallTsi smallConfig).run [smallPush 0 none 1, smallParity 0]).slotIs 1
      (·.state = .haveParity) := by decide +kernel
  have after : (((create smallTsi smallConfig).run [smallPush 0 none 1, smallParity 0]).step
      (.repair (bareGroup [1]) constantDecoder 5)).1.slotIs 1 (·.state = .haveData) := by
    decide +kernel
  have narrow : (Op.repair (bareGroup [1]) constantDecoder 5).IsNarrow := ⟨1, by decide⟩
  obtain ⟨old, found, hold⟩ := exists_slot before
  obtain ⟨new, found', hnew⟩ := exists_slot after
  obtain ⟨onward, -, -, -, created, -, filled⟩ :=
    slot_lives_on smallTsi smallConfig narrow found found'
  exact ⟨narrow, old, new, found, found', hold, hnew, onward, created,
    filled (by rw [hold]; rfl) (by rw [hnew]; rfl)⟩

/-- A repair whose members lie far apart takes the window all the way round, and a number that is in
it again has a new slot. -/
theorem not_onward_around :
    let w := (create smallTsi smallConfig).run [smallPush 0 none 1]
    let op := Op.repair (bareGroup [2147483647, 4294967291, 1]) constantDecoder 5
    ∃ old new, w.slots.get? 0 = some old ∧ (w.step op).1.slots.get? 0 = some new ∧
      old.state = .haveData ∧ new.state = .backOff ∧ ¬ old.state.Onward new.state := by
  have before : ((create smallTsi smallConfig).run [smallPush 0 none 1]).slotIs 0
      (·.state = .haveData) := by decide +kernel
  have after : (((create smallTsi smallConfig).run [smallPush 0 none 1]).step (.repair
      (bareGroup [2147483647, 4294967291, 1]) constantDecoder 5)).1.slotIs 0
        (·.state = .backOff) := by decide +kernel
  obtain ⟨old, found, hold⟩ := exists_slot before
  obtain ⟨new, found', hnew⟩ := exists_slot after
  refine ⟨old, new, found, found', hold, hnew, fun onward => ?_⟩
  rw [hold, hnew] at onward
  rcases onward.hasData rfl with hd | hl
  · cases hd
  · cases hl

end Window

end ReliableMulticast
