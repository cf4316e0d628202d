import ReliableMulticast.Proofs.Stillness

/-!
# Groups that stay repairable

A repairable group has a parity packet for each missing member and the data of all others. Every move
that leaves its members in the window upholds that slot by slot (`Slot.Upholds`): a parity packet is
used up only by the member whose slot it lies in, and no member's data is dropped while another one
is missing. So the group is repairable until nothing is missing (`repairable_lasts`).
-/

namespace ReliableMulticast

/-- The new slot serves its group as the old one did: it is not given up, uses up its parity packet
only if its own packet comes, keeps its data as it is, and gets its data with its packet. -/
structure Slot.Upholds (old new : Slot) : Prop where
  alive : new.state ≠ .lost
  balance : new.state.repairPending.toNat + old.parity.isSome.toNat ≤
    new.parity.isSome.toNat + old.state.repairPending.toNat
  kept : old.state.hasData → new.state.hasData ∧ new.payload = old.payload
  filled : old.state.repairPending → new.state.hasData → new.payload.isSome

namespace Slot.Upholds

theorem refl {slot : Slot} (alive : slot.state ≠ .lost) : slot.Upholds slot where
  alive := alive
  balance := Nat.le_of_eq (Nat.add_comm ..)
  kept := fun h => ⟨h, rfl⟩
  filled := fun hp hd => by
    rw [(SlotState.hasData_iff.1 hd).2] at hp
    cases hp

theorem commit {slot : Slot} (held : slot.state = .haveData) : slot.Upholds slot.commit where
  alive := nofun
  balance := by
    rw [held]
    exact Nat.le_of_eq (Nat.add_comm ..)
  kept := fun _ => ⟨rfl, rfl⟩
  filled := fun hp => by
    rw [held] at hp
    cases hp

end Slot.Upholds

namespace Window

variable {w w' v : Window} {notes : List Note} {s x : SeqNum} {old new : Slot} {g : Group}

/-- What a move leaves of a slot upholds it, if the slot is not given up and, once delivered, needed
for its group. -/
theorem Turns.upholds (h : w.Turns w' x old notes new) (alive : new.state ≠ .lost)
    (needed : old.state.delivered → w.isRetained x) : old.Upholds new := by
  -- What was missing had no data to keep.
  have bare : ∀ {P : Prop}, old.state.repairPending → old.state.hasData → P := by
    intro P hp hd
    rw [(SlotState.hasData_iff.1 hd).2] at hp
    cases hp
  cases h with
  | same => exact .refl alive
  | fill p fromParity pending =>
    refine ⟨alive, ?_, bare pending, fun _ _ => rfl⟩
    rw [pending]
    cases fromParity with
    | true => exact Nat.add_le_add_left (Bool.toNat_le _) 0
    | false => exact Nat.le_succ_of_le (Nat.le_of_eq (Nat.zero_add _))
  | wait pending waits =>
    have pending' := waits.pending pending
    refine ⟨alive, ?_, bare pending, fun _ hd => ?_⟩
    · rw [waits.parity, pending', pending]
      exact Nat.le_of_eq (Nat.add_comm ..)
    · rw [(SlotState.hasData_iff.1 hd).2] at pending'
      cases pending'
  | keep p pending empty =>
    refine ⟨alive, ?_, bare pending, fun _ hd => by cases hd⟩
    rw [pending, empty]
    exact Nat.le_succ 1
  | lose | spoil | orphan => exact absurd old.state_lose alive
  | commit _ held => exact .commit held
  | retain =>
    rcases old.retain_cases with he | ⟨hc, he⟩ <;> rw [he] at alive ⊢
    · exact .refl alive
    · refine ⟨alive, ?_, fun _ => ⟨rfl, rfl⟩, fun hp => ?_⟩
      · rw [hc]
        exact Nat.le_of_eq (Nat.add_comm ..)
      · rw [hc] at hp
        cases hp
  | free unneeded =>
    rcases old.dropPayload_cases with he | ⟨hc, -⟩
    · rw [he] at alive ⊢
      exact .refl alive
    · rw [needed (by rw [hc]; rfl)] at unneeded
      cases unneeded

/-- A slot that has data and is not given up has data after a move. -/
theorem Turns.hasData (h : w.Turns w' x old notes new) (alive : new.state ≠ .lost)
    (held : old.state.hasData) : new.state.hasData := by
  refine SlotState.hasData_iff.2 ⟨alive, Bool.eq_false_iff.2 fun hp => ?_⟩
  cases (h.pending hp).symm.trans (SlotState.hasData_iff.1 held).2

/-! ### Repairable groups -/

/-- How many members of the group of `s` are missing. -/
def missingCount (w : Window) (s : SeqNum) : Nat :=
  (w.groupNumbers s).countP (w.slotIs · (·.state.repairPending))

/-- How many parity packets the group of `s` keeps. -/
def parityCount (w : Window) (s : SeqNum) : Nat :=
  (w.groupNumbers s).countP (w.slotIs · (·.parity.isSome))

/-- The group of `s` can be repaired, told by its slots. -/
structure Recoverable (w : Window) (s : SeqNum) : Prop where
  grouped : 1 < w.groupSize
  usable : ∀ x ∈ w.groupNumbers s, ∃ slot, w.slots.get? x = some slot ∧ slot.isUsable
  missing : 0 < w.missingCount s
  enough : w.missingCount s ≤ w.parityCount s

/-- The group of `s` with what its slots hold. -/
def groupAt (w : Window) (s : SeqNum) : Group where
  tsi := w.tsi
  first := w.groupFirst s
  members := ((w.groupNumbers s).filterMap w.slots.get?).map Slot.member
  parity := ParityPacket.sort (((w.groupNumbers s).filterMap w.slots.get?).filterMap Slot.parity)

end Window

theorem Slot.isUsable_iff {slot : Slot} : slot.isUsable ↔
    slot.state ≠ .lost ∧ (slot.state.hasData → slot.payload.isSome) := by
  unfold Slot.isUsable
  cases slot.state.hasData <;> cases slot.payload <;> simp

theorem Slot.Upholds.isUsable {old new : Slot} (h : old.Upholds new) (usable : old.isUsable) :
    new.isUsable := by
  obtain ⟨alive, stocked⟩ := Slot.isUsable_iff.1 usable
  refine Slot.isUsable_iff.2 ⟨h.alive, fun hd => ?_⟩
  cases hp : old.state.repairPending with
  | true => exact h.filled hp hd
  | false =>
    have held := SlotState.hasData_iff.2 ⟨alive, hp⟩
    rw [(h.kept held).2]
    exact stocked held

/-- A usable slot has data for its group unless its packet is missing. -/
theorem Slot.isNone_member {slot : Slot} (h : slot.isUsable) :
    slot.member.payload.isNone = slot.state.repairPending := by
  obtain ⟨alive, hpayload⟩ := Slot.isUsable_iff.1 h
  cases hd : slot.state.hasData with
  | true =>
    obtain ⟨payload, hsome⟩ := Option.isSome_iff_exists.1 (hpayload hd)
    rw [(SlotState.hasData_iff.1 hd).2, Slot.member, if_pos hd, hsome]
    rfl
  | false =>
    cases hp : slot.state.repairPending with
    | true => simp [Slot.member, hd]
    | false => cases (SlotState.hasData_iff.2 ⟨alive, hp⟩).symm.trans hd

namespace Window

variable {w w' v : Window} {notes : List Note} {s x : SeqNum} {old new : Slot} {g : Group}

/-- Slots of a group that do something count as its numbers whose slots do. -/
theorem countP_filterMap_get? (w : Window) (numbers : List SeqNum) (p : Slot → Bool) :
    (numbers.filterMap w.slots.get?).countP p = numbers.countP (w.slotIs · p) := by
  rw [List.countP_filterMap]
  refine List.countP_congr fun x _ => ?_
  cases h : w.slots.get? x <;> simp [slotIs, h]

theorem repairableGroup?_eq_some_iff :
    w.repairableGroup? s = some g ↔ w.Recoverable s ∧ g = w.groupAt s := by
  have hparity : (w.groupAt s).parity.length = w.parityCount s := by
    refine (ParityPacket.perm_sort _).length_eq.trans ?_
    rw [List.length_filterMap_eq_countP, countP_filterMap_get?, parityCount]
  have hmissing : (∀ slot ∈ (w.groupNumbers s).filterMap w.slots.get?, slot.isUsable) →
      (w.groupAt s).missing.length = w.missingCount s := by
    intro usable
    rw [Group.missing, List.length_map, ← List.countP_eq_length_filter, groupAt, List.countP_map,
      missingCount, ← countP_filterMap_get?]
    refine List.countP_congr fun slot hslot => ?_
    rw [Function.comp_apply, Slot.isNone_member (usable slot hslot)]
  unfold repairableGroup?
  split
  next hsize =>
    exact iff_of_false (Option.some_ne_none g).symm fun ⟨h, _⟩ => Nat.not_le.2 h.grouped hsize
  next hsize =>
    split
    next hslots =>
      refine iff_of_false (Option.some_ne_none g).symm fun ⟨h, _⟩ => ?_
      have present : ∀ x ∈ w.groupNumbers s, (w.slots.get? x).isSome := by
        intro x hx
        obtain ⟨slot, hslot, -⟩ := h.usable x hx
        rw [hslot]
        rfl
      cases hslots.symm.trans (mapM_eq_some_iff.2 ⟨present, rfl⟩)
    next slots hslots =>
      obtain ⟨hall, rfl⟩ := mapM_eq_some_iff.1 hslots
      change (if List.all _ Slot.isUsable = true ∧ 0 < (w.groupAt s).missing.length ∧
        (w.groupAt s).missing.length ≤ (w.groupAt s).parity.length then some (w.groupAt s)
        else none) = some g ↔ _
      rw [Option.ite_none_right_eq_some, Option.some.injEq, eq_comm (a := g), List.all_eq_true]
      refine and_congr_left fun _ => ⟨fun ⟨usable, hpos, hle⟩ => ?_, fun h => ?_⟩
      · rw [hmissing usable] at hpos hle
        refine ⟨Nat.lt_of_not_le hsize, fun x hx => ?_, hpos, hparity ▸ hle⟩
        obtain ⟨slot, hslot⟩ := Option.isSome_iff_exists.1 (hall x hx)
        exact ⟨slot, hslot, usable slot (List.mem_filterMap.2 ⟨x, hx, hslot⟩)⟩
      · have usable : ∀ slot ∈ (w.groupNumbers s).filterMap w.slots.get?, slot.isUsable := by
          intro slot hslot
          obtain ⟨x, hx, hfound⟩ := List.mem_filterMap.1 hslot
          obtain ⟨other, hother, husable⟩ := h.usable x hx
          obtain rfl := Option.some.inj (hother.symm.trans hfound)
          exact husable
        rw [hmissing usable, hparity]
        exact ⟨usable, h.missing, h.enough⟩

/-! ### What members keep -/

/-- The slots of the numbers after a move uphold those before. -/
def UpholdsAll (w w' : Window) (numbers : List SeqNum) : Prop :=
  ∀ x ∈ numbers, ∃ old new, w.slots.get? x = some old ∧ w'.slots.get? x = some new ∧ old.Upholds new

/-- Where slots uphold others, the missing packets without the parity packets never become more. -/
theorem UpholdsAll.balance {numbers : List SeqNum} (h : w.UpholdsAll w' numbers) :
    numbers.countP (w'.slotIs · (·.state.repairPending)) + numbers.countP (w.slotIs · (·.parity.isSome)) ≤
      numbers.countP (w'.slotIs · (·.parity.isSome)) +
        numbers.countP (w.slotIs · (·.state.repairPending)) := by
  induction numbers with
  | nil => exact Nat.le_refl _
  | cons x numbers ih =>
    obtain ⟨old, new, hold, hnew, hup⟩ := h x (List.mem_cons_self ..)
    have hrest := ih fun y hy => h y (List.mem_cons_of_mem x hy)
    have hhere := hup.balance
    have here : ∀ {v : Window} {slot : Slot} {p : Slot → Bool}, v.slots.get? x = some slot →
        (if v.slotIs x p then 1 else 0) = (p slot).toNat := by
      intro v slot p hs
      rw [slotIs, hs, Option.any_some]
      cases p slot <;> rfl
    rw [List.countP_cons, List.countP_cons, List.countP_cons, List.countP_cons, here hnew, here hold,
      here hnew, here hold]
    omega

/-- All members of a group have the same group. -/
theorem groupFirst_eq (h : w.Sound) (hx : x ∈ w.groupNumbers s) : w.groupFirst x = w.groupFirst s :=
  SeqNum.ext_toNat (by rw [toNat_groupFirst, toNat_groupFirst, (mem_groupNumbers_iff h).1 hx])

theorem groupNumbers_eq (h : w.Sound) (hx : x ∈ w.groupNumbers s) :
    w.groupNumbers x = w.groupNumbers s := by
  rw [groupNumbers, groupFirst_eq h hx, groupNumbers]

/-- A member that was delivered is needed by a group that can be repaired. -/
theorem Recoverable.isRetained (h : w.Recoverable s) (hs : w.Sound) (hx : x ∈ w.groupNumbers s)
    (hold : w.slots.get? x = some old) (delivered : old.state.delivered) : w.isRetained x := by
  refine (hs.isRetained_iff hold).2 ⟨h.grouped, delivered, .inr ?_⟩
  rw [groupNumbers_eq hs hx]
  refine ⟨fun y hy => ?_, ?_⟩
  · obtain ⟨slot, hslot, usable⟩ := h.usable y hy
    exact ⟨slot, hslot, (Slot.isUsable_iff.1 usable).1⟩
  · obtain ⟨y, hy, hmissing⟩ := List.countP_pos_iff.1 h.missing
    obtain ⟨slot, hslot, hp⟩ := (Option.any_eq_true _ _).1 hmissing
    exact ⟨y, hy, slot, hslot, hp⟩

theorem groupNumbers_of_groupSize_eq (same : w'.groupSize = w.groupSize) (s : SeqNum) :
    w'.groupNumbers s = w.groupNumbers s := by
  rw [groupNumbers, groupFirst, groupIndex, same, groupNumbers, groupFirst, groupIndex]

/-- A repairable group whose slots are upheld is repairable, or nothing is missing any more. -/
theorem Recoverable.upheld (h : w.Recoverable s) (same : w'.groupSize = w.groupSize)
    (upheld : w.UpholdsAll w' (w.groupNumbers s)) (missing : 0 < w'.missingCount s) :
    w'.Recoverable s := by
  have hgroup := groupNumbers_of_groupSize_eq same s
  refine ⟨same ▸ h.grouped, fun x hx => ?_, missing, ?_⟩
  · obtain ⟨old, new, hold, hnew, hup⟩ := upheld x (hgroup ▸ hx)
    obtain ⟨slot, hslot, usable⟩ := h.usable x (hgroup ▸ hx)
    obtain rfl := Option.some.inj (hslot.symm.trans hold)
    exact ⟨new, hnew, hup.isUsable usable⟩
  · have := upheld.balance
    have := h.enough
    unfold missingCount parityCount at *
    rw [hgroup]
    omega

/-- The group of `s`, repairable in `w`, is still repairable in `v`, with all the data that it had. -/
structure Serves (w v : Window) (s : SeqNum) : Prop where
  groupSize : v.groupSize = w.groupSize
  recoverable : v.Recoverable s
  kept : ∀ x ∈ w.groupNumbers s, ∀ old, w.slots.get? x = some old → old.state.hasData →
    ∃ new, v.slots.get? x = some new ∧ new.state.hasData ∧ new.payload = old.payload

/-- All members of the group that `s` had in `w` have data in `v`, or the group is still repairable. -/
def Endures (w v : Window) (s : SeqNum) : Prop :=
  (∀ x ∈ w.groupNumbers s, v.slotIs x (·.state.hasData)) ∨ w.Serves v s

theorem Serves.next (h : w.Serves v s) (same : w'.groupSize = v.groupSize)
    (upheld : v.UpholdsAll w' (w.groupNumbers s)) : w.Endures w' s := by
  have hgroup := groupNumbers_of_groupSize_eq h.groupSize s
  rcases Nat.eq_zero_or_pos (w'.missingCount s) with hzero | hpos
  · left
    intro x hx
    obtain ⟨_, new, _, hnew, hup⟩ := upheld x hx
    rw [missingCount, groupNumbers_of_groupSize_eq (same.trans h.groupSize),
      List.countP_eq_zero] at hzero
    have hp := hzero x hx
    rw [slotIs, hnew] at hp ⊢
    exact SlotState.hasData_iff.2 ⟨hup.alive, Bool.eq_false_iff.2 hp⟩
  · refine .inr ⟨same.trans h.groupSize, h.recoverable.upheld same (hgroup ▸ upheld) hpos, ?_⟩
    intro x hx first hfirst held
    obtain ⟨old, hold, held', hpayload⟩ := h.kept x hx first hfirst held
    obtain ⟨mid, new, hmid, hnew, hup⟩ := upheld x hx
    obtain rfl := Option.some.inj (hmid.symm.trans hold)
    obtain ⟨held'', hsame⟩ := hup.kept held'
    exact ⟨new, hnew, held'', hsame.trans hpayload⟩

theorem Recoverable.holdsGroupData (h : w.Recoverable s) : w.holdsGroupData := by
  obtain ⟨x, -, hparity⟩ := List.countP_pos_iff.1 (Nat.lt_of_lt_of_le h.missing h.enough)
  obtain ⟨slot, hslot, hparity⟩ := (Option.any_eq_true _ _).1 hparity
  refine List.any_eq_true.2 ⟨slot, SlotRing.mem_cellList hslot, ?_⟩
  rw [hparity, Bool.true_or]

/-- A move in whose course the members stay leaves the group repairable or complete. -/
theorem Move.endures (hm : v.Move notes w') (hs : v.Sound)
    (before : ∀ x ∈ w.groupNumbers s, v.IsAlive x) (after : ∀ x ∈ w.groupNumbers s, w'.IsAlive x)
    (h : w.Endures v s) : w.Endures w' s := by
  have turned : ∀ x ∈ w.groupNumbers s, ∃ old new, v.slots.get? x = some old ∧
      w'.slots.get? x = some new ∧ new.state ≠ .lost ∧ v.Turns w' x old notes new := by
    intro x hx
    obtain ⟨new, hnew, alive⟩ := after x hx
    obtain ⟨old, hold, hturns⟩ := hm.exists_turns hs (before x hx).contains hnew
    exact ⟨old, new, hold, hnew, alive, hturns⟩
  rcases h with complete | serves
  · left
    intro x hx
    obtain ⟨old, new, hold, hnew, alive, hturns⟩ := turned x hx
    have held := complete x hx
    rw [slotIs, hold] at held
    rw [slotIs, hnew]
    exact hturns.hasData alive held
  · refine serves.next (hm.groupSize_eq (.inl serves.recoverable.holdsGroupData)) fun x hx => ?_
    obtain ⟨old, new, hold, hnew, alive, hturns⟩ := turned x hx
    refine ⟨old, new, hold, hnew, hturns.upholds alive fun delivered => ?_⟩
    have hgroup := groupNumbers_of_groupSize_eq serves.groupSize s
    exact serves.recoverable.isRetained hs (hgroup ▸ hx) hold delivered

/-- What a read leaves of slots that are not given up upholds them. -/
theorem upholdsAll_readReady (hs : w.Sound) (count : Nat) {numbers : List SeqNum}
    (alive : ∀ x ∈ numbers, (w.readReady count).1.IsAlive x) :
    w.UpholdsAll (w.readReady count).1 numbers := by
  intro x hx
  obtain ⟨new, hnew, alive⟩ := alive x hx
  obtain ⟨mid, hmid, hnew'⟩ := (onlyLoses_resolve _).slots hnew
  obtain ⟨old, hold, hmid'⟩ := get?_takeReady_cases _ _ hs.report hmid
  refine ⟨old, new, hold, hnew, ?_⟩
  rcases hnew' with rfl | rfl
  · rcases hmid' with rfl | ⟨held, rfl⟩
    · exact .refl alive
    · exact .commit held
  · exact absurd mid.state_lose alive

/-! ### Histories -/

/-- The members of a repairable group are its numbers, in order. -/
theorem Recoverable.sequences (h : w.Recoverable s) :
    (w.groupAt s).members.map (·.sequence) = w.groupNumbers s := by
  have here : ∀ x ∈ w.groupNumbers s, ((w.slots.get? x).map (·.sequence)) = some x := by
    intro x hx
    obtain ⟨slot, hslot, -⟩ := h.usable x hx
    rw [hslot, Option.map_some, SlotRing.sequence_of_get? hslot]
  have hsequence : (fun m : GroupMember => m.sequence) ∘ Slot.member = (·.sequence) := rfl
  rw [groupAt, List.map_map, hsequence, List.map_filterMap, List.filterMap_congr here,
    List.filterMap_some]

theorem mem_members_groupAt {m : GroupMember} : m ∈ (w.groupAt s).members ↔
    ∃ x ∈ w.groupNumbers s, ∃ slot, w.slots.get? x = some slot ∧ slot.member = m := by
  simp only [groupAt, List.mem_map, List.mem_filterMap]
  exact ⟨fun ⟨slot, ⟨x, hx, hslot⟩, hm⟩ => ⟨x, hx, slot, hslot, hm⟩,
    fun ⟨x, hx, slot, hslot, hm⟩ => ⟨slot, ⟨x, hx, hslot⟩, hm⟩⟩

/-- Members that have data where the group was repairable have the same data where it still is. -/
theorem Serves.mem_members (h : w.Serves v s) {m : GroupMember} (hm : m ∈ (w.groupAt s).members)
    (held : m.payload.isSome) : m ∈ (v.groupAt s).members := by
  obtain ⟨x, hx, old, hold, rfl⟩ := mem_members_groupAt.1 hm
  have hdata : old.state.hasData := by
    by_contra hno
    rw [Slot.member, if_neg hno] at held
    cases held
  obtain ⟨new, hnew, hdata', hpayload⟩ := h.kept x hx old hold hdata
  refine mem_members_groupAt.2
    ⟨x, groupNumbers_of_groupSize_eq h.groupSize s ▸ hx, new, hnew, ?_⟩
  rw [Slot.member, if_pos hdata', hpayload, SlotRing.sequence_of_get? hnew, Slot.member, if_pos hdata,
    SlotRing.sequence_of_get? hold]

/-- A group that can be repaired misses a packet. -/
theorem Recoverable.exists_missing (h : w.Recoverable s) :
    ∃ x ∈ w.groupNumbers s, ∃ slot, w.slots.get? x = some slot ∧ slot.state.repairPending := by
  obtain ⟨x, hx, hmissing⟩ := List.countP_pos_iff.1 h.missing
  exact ⟨x, hx, (Option.any_eq_true _ _).1 hmissing⟩

/-- The members of a group that stay in the course of a history leave it repairable or complete. -/
theorem endures_run (hs : w.Sound) (h : w.Recoverable s) {ops : List Op}
    (hparts : ∀ op ∈ ops, op.isPart) (live : (w.run ops).isGone = false)
    (stay : ∀ before, before <+: ops → ∀ x ∈ w.groupNumbers s, (w.run before).IsAlive x) :
    w.Endures (w.run ops) s := by
  have start : w.Endures w s := .inr ⟨rfl, h, fun x _ old hold held => ⟨old, hold, held, rfl⟩⟩
  obtain ⟨_, _, slot, found, -⟩ := h.exists_missing
  refine ((history_induction (motive := fun ops => (w.run ops).isGone = false →
    (∀ before, before <+: ops → ∀ x ∈ w.groupNumbers s, (w.run before).IsAlive x) →
      (w.run ops).isDefined ∧ w.Endures (w.run ops) s) hs
    (fun _ _ => ⟨hs.isDefined_of_get? found, start⟩) ?_ hparts live).2 live stay).2
  intro ops op notes hsound hmoves htells ih live stay
  have live' : (w.run ops).isGone = false := hmoves.keeps.isGone.symm.trans live
  obtain ⟨defined, endures⟩ := ih live' fun before hbefore =>
    stay before (hbefore.trans (List.prefix_append ops [op]))
  refine ⟨hmoves.keeps.isDefined defined, ?_⟩
  have before := stay ops (List.prefix_append ops [op])
  have after := stay (ops ++ [op]) (List.prefix_refl _)
  by_cases hread : ∃ count, op = .read count
  · -- What is read can be more than the numbers of half a turn, so its slots are looked at as a whole.
    obtain ⟨count, rfl⟩ := hread
    rw [run_concat, step_read live'] at after hmoves ⊢
    have upheld := upholdsAll_readReady hsound count after
    rcases endures with complete | serves
    · left
      intro x hx
      obtain ⟨old, new, hold, hnew, hup⟩ := upheld x hx
      have held := complete x hx
      rw [slotIs, hold] at held
      rw [slotIs, hnew]
      exact (hup.kept held).1
    · exact serves.next (hmoves.groupSize_eq (htells.regroups trivial)) upheld
  · refine hmoves.induct_alive hsound defined
      (htells.advance_le fun count hop => hread ⟨count, hop⟩) (fun x hx => (before x hx).contains)
      after (fun hv hmove hbefore hafter => hmove.endures hv hbefore hafter) endures

/-- A group that is repairable stays so as long as its members stay in the window and none of them is
given up, unless they all have data then; and no member's data is lost. -/
theorem repairable_lasts (tsi : Tsi) (config : ValidConfig) (ops more : List Op) (s : SeqNum)
    {g : Group} (repairable : ((create tsi config).run ops).repairableGroup? s = some g)
    (stay : ∀ before, before <+: parts more → ∀ m ∈ g.members,
      (((create tsi config).run ops).run before).IsAlive m.sequence) :
    let after := (create tsi config).run (ops ++ more)
    (∀ m ∈ g.members, after.slotIs m.sequence (·.state.hasData)) ∨
      ∃ g', after.repairableGroup? s = some g' ∧ g'.first = g.first ∧
        g'.members.map (·.sequence) = g.members.map (·.sequence) ∧
          ∀ m ∈ g.members, m.payload.isSome → m ∈ g'.members := by
  intro after
  obtain ⟨h, rfl⟩ := repairableGroup?_eq_some_iff.1 repairable
  have hmembers : ∀ x ∈ ((create tsi config).run ops).groupNumbers s,
      ∃ m ∈ (((create tsi config).run ops).groupAt s).members, m.sequence = x :=
    fun x hx => List.mem_map.1 (h.sequences ▸ hx)
  have stay' : ∀ before, before <+: parts more →
      ∀ x ∈ ((create tsi config).run ops).groupNumbers s,
        (((create tsi config).run ops).run before).IsAlive x := by
    intro before hbefore x hx
    obtain ⟨m, hm, rfl⟩ := hmembers x hx
    exact stay before hbefore m hm
  have hafter : ((create tsi config).run ops).run (parts more) = after := by
    rw [run_parts, ← run_append]
  obtain ⟨x, hx, slot, found, -⟩ := h.exists_missing
  have live : ((create tsi config).run ops).isGone = false := by
    refine Bool.eq_false_iff.2 fun gone => ?_
    cases (get?_of_gone tsi config gone x).symm.trans found
  have live' : after.isGone = false := by
    refine Bool.eq_false_iff.2 fun gone => ?_
    obtain ⟨last, hlast, -⟩ := stay' (parts more) (List.prefix_refl _) x hx
    rw [hafter] at hlast
    cases (get?_of_gone tsi config gone x).symm.trans hlast
  have endures := endures_run (sound_run (sound_create tsi config) live).1 h isPart_of_mem_parts
    (hafter ▸ live') stay'
  rw [hafter] at endures
  rcases endures with complete | serves
  · exact .inl fun m hm => complete _ (h.sequences ▸ List.mem_map_of_mem hm)
  · right
    have hgroup := groupNumbers_of_groupSize_eq serves.groupSize s
    refine ⟨after.groupAt s, repairableGroup?_eq_some_iff.2 ⟨serves.recoverable, rfl⟩, ?_, ?_,
      fun m hm held => serves.mem_members hm held⟩
    · change after.groupFirst s = _
      rw [groupFirst, groupIndex, serves.groupSize]
      rfl
    · rw [h.sequences, serves.recoverable.sequences, hgroup]

/-- The first packet of a group and a parity packet arrived, so the second one can be computed. -/
def lastingHistory : List Op := [smallPush 0 none 1, smallParity 0]

theorem repairable_lasts_small :
    let w := (create smallTsi smallConfig).run lastingHistory
    ∃ g, w.repairableGroup? 0 = some g ∧ g.missing = [1] ∧
      ((∀ m ∈ g.members, (w.run [.read 1, .free]).slotIs m.sequence (·.state.hasData)) ∨
        ∃ g', (w.run [.read 1, .free]).repairableGroup? 0 = some g' ∧ g'.first = g.first ∧
          g'.members.map (·.sequence) = g.members.map (·.sequence) ∧
            ∀ m ∈ g.members, m.payload.isSome → m ∈ g'.members) := by
  obtain ⟨g, repairable, hmissing, hmembers⟩ : ∃ g, ((create smallTsi smallConfig).run
      lastingHistory).repairableGroup? 0 = some g ∧ g.missing = [1] ∧
        g.members.map (·.sequence) = [0, 1] := ⟨_, by rfl, by rfl, by rfl⟩
  refine ⟨g, repairable, hmissing, ?_⟩
  have lasts := repairable_lasts smallTsi smallConfig lastingHistory [.read 1, .free] 0 repairable ?_
  · rwa [run_append] at lasts
  · intro before hbefore m hm
    have alive : ∀ n ≤ 2, ∀ x ∈ [(0 : SeqNum), 1], (((create smallTsi smallConfig).run
        lastingHistory).run ((parts [.read 1, .free]).take n)).slotIs x (·.state ≠ .lost) := by
      decide +kernel
    have hx : m.sequence ∈ [(0 : SeqNum), 1] := hmembers ▸ List.mem_map_of_mem hm
    have here := alive before.length hbefore.length_le m.sequence hx
    rw [← List.prefix_iff_eq_take.1 hbefore] at here
    obtain ⟨slot, hslot, hlost⟩ := (Option.any_eq_true _ _).1 here
    exact ⟨slot, hslot, by simpa using hlost⟩

end Window

end ReliableMulticast
