import ReliableMulticast.Proofs.History
import ReliableMulticast.Proofs.Repairable

/-!
# The data of retained slots

A delivered slot gives its data up when its group needs it no more, and is retained when its group
needs it. With one group size the two do not meet: a group in which all members arrived, or one was
lost or left, stays so (`isRetained_of_move`). So a slot without data is never retained, unless the
group size was changed after it gave its data up (`ResizedWithout`).
-/

namespace ReliableMulticast

namespace Slot

/-- The slot was delivered and gave its data up. -/
def IsSpent (slot : Slot) : Prop := slot.state.delivered ∧ slot.payload = none

end Slot

namespace Window

variable {w w' : Window} {notes : List Note} {x y : SeqNum} {old new : Slot}

/-! ### What a slot was before -/

theorem Turns.not_lost (h : w.Turns w' x old notes new) (hn : new.state ≠ .lost) :
    old.state ≠ .lost := by
  cases h with
  | same => exact hn
  | fill _ _ pending | keep _ pending | wait pending =>
    rintro hl
    rw [hl] at pending
    cases pending
  | lose | spoil | orphan => exact absurd old.state_lose hn
  | commit _ held =>
    rw [held]
    nofun
  | retain =>
    rcases old.retain_cases with he | ⟨hc, -⟩
    · rwa [he] at hn
    · simp [hc]
  | free => rwa [old.state_dropPayload] at hn

/-- A packet that is missing was missing before. -/
theorem Turns.pending (h : w.Turns w' x old notes new) (hp : new.state.repairPending) :
    old.state.repairPending := by
  cases h with
  | same => exact hp
  | fill => cases hp
  | keep _ pending | wait pending => exact pending
  | lose | spoil | orphan =>
    rw [old.state_lose] at hp
    cases hp
  | commit => cases hp
  | retain =>
    rcases old.retain_cases with he | ⟨-, he⟩ <;> rw [he] at hp
    · exact hp
    · cases hp
  | free => rwa [old.state_dropPayload] at hp

/-! ### Groups at the lead -/

theorem groupFirst_add_groupIndex (w : Window) (x : SeqNum) : w.groupFirst x + w.groupIndex x = x := by
  have hx := x.toNat_lt
  have hle := Nat.mod_le x.raw.toNat w.groupSize
  refine SeqNum.ext_toNat ?_
  rw [SeqNum.toNat_add, groupFirst, groupIndex, SeqNum.toNat_sub]
  omega

theorem Sound.groupIndex_lt (h : w.Sound) (x : SeqNum) : w.groupIndex x < w.groupSize :=
  Nat.mod_lt _ h.groupSize_pos

/-- How far the number after the lead is from a number in the window. -/
theorem Sound.gap_next_of_contains (h : w.Sound) (hx : w.slots.Contains x) :
    0 < x.gap w.next ∧ x.gap w.next ≤ 1073741824 := by
  have hlt := contains_iff_place.1 hx
  have hsize := h.size_le
  rw [gap_eq_place_sub (w := w) (by rw [place_next]; omega), place_next]
  omega

/-- The lead never comes nearer to a number that stays in the window. -/
theorem Move.gap_next_le (hm : w.Move notes w') (h : w.Sound) (hx : w.slots.Contains x)
    (hnew : w'.slots.get? x = some new) : x.gap w.next ≤ x.gap w'.next := by
  have hle := (h.gap_next_of_contains hx).2
  rcases hm.next_cases h with hnext | ⟨hnext, -⟩ | hempty
  · rw [hnext]
  · have hstep : x.gap w.next.next = x.gap w.next + 1 := SeqNum.gap_add_right (by omega)
    rw [hnext, hstep]
    omega
  · cases (get?_of_empty hempty x).symm.trans hnew

theorem groupFirst_add_gap_next (w : Window) (x : SeqNum) :
    w.groupFirst x + (w.groupIndex x + x.gap w.next) = w.next := by
  rw [← SeqNum.add_add, groupFirst_add_groupIndex, SeqNum.add_gap]

/-- The group of a number in the window reaches beyond the lead if it has more members from the number
on than the window has numbers. -/
theorem Sound.after_lead_iff_groupIndex (h : w.Sound) (hx : w.slots.Contains x) :
    (w.groupFirst x + w.groupSize).prev.After w.lead ↔
      x.gap w.next + w.groupIndex x < w.groupSize := by
  obtain ⟨hpos, hle⟩ := h.gap_next_of_contains hx
  have hindex := h.groupIndex_lt x
  have hsize := h.groupSize.2
  unfold maxGroupSize at hsize
  have hlead : w.lead = w.groupFirst x + (w.groupIndex x + x.gap w.next - 1) := by
    rw [← SeqNum.prev_add _ (by omega), groupFirst_add_gap_next]
    rfl
  rw [SeqNum.prev_add _ h.groupSize_pos, hlead, SeqNum.After, SeqNum.before_add_iff _ (by omega) (by omega)]
  omega

/-- If the number after the lead belongs to a group, the group reaches beyond the lead. -/
theorem Sound.gap_next_lt_of_mem (h : w.Sound) (hx : w.slots.Contains x)
    (hmem : w.next ∈ w.groupNumbers x) : x.gap w.next + w.groupIndex x < w.groupSize := by
  obtain ⟨hpos, hle⟩ := h.gap_next_of_contains hx
  have hindex := h.groupIndex_lt x
  have hsize := h.groupSize.2
  unfold maxGroupSize at hsize
  obtain ⟨k, hk, hnext⟩ := SeqNum.mem_run.1 hmem
  rw [← groupFirst_add_gap_next w x, SeqNum.add_inj (by omega) (by omega)] at hnext
  omega

/-! ### Retained slots -/

/-- A delivered slot is retained if its group reaches beyond the lead, or all of it is in the window
with a packet missing and none lost. -/
theorem Sound.isRetained_iff (h : w.Sound) (hs : w.slots.get? x = some old) :
    w.isRetained x ↔ 1 < w.groupSize ∧ old.state.delivered ∧
      (x.gap w.next + w.groupIndex x < w.groupSize ∨
        (∀ y ∈ w.groupNumbers x, ∃ slot, w.slots.get? y = some slot ∧ slot.state ≠ .lost) ∧
          ∃ y ∈ w.groupNumbers x, w.IsMissing y) := by
  have hcontains := SlotRing.isSome_get?_iff.1 (by rw [hs]; rfl : (w.slots.get? x).isSome)
  have hdelivered : w.slotIs x (·.state.delivered) = old.state.delivered := by simp [slotIs, hs]
  unfold isRetained
  rw [hdelivered]
  simp only [h.after_lead_iff_groupIndex hcontains]
  cases hd : old.state.delivered with
  | false => simp
  | true =>
    by_cases hsize : w.groupSize ≤ 1
    · simp [hsize, Nat.not_lt.2 hsize]
    by_cases hreach : x.gap w.next + w.groupIndex x < w.groupSize
    · simp [hsize, hreach, Nat.lt_of_not_le hsize]
    simp only [hsize, hreach, if_false, Bool.not_true, Bool.false_eq_true, Nat.lt_of_not_le hsize,
      true_and, false_or]
    cases hslots : (w.groupNumbers x).mapM w.slots.get? with
    | none =>
      refine iff_of_false Bool.false_ne_true ?_
      rintro ⟨hall, -⟩
      have present : ∀ y ∈ w.groupNumbers x, (w.slots.get? y).isSome := by
        intro y hy
        obtain ⟨slot, hslot, -⟩ := hall y hy
        rw [hslot]
        rfl
      cases hslots.symm.trans (mapM_eq_some_iff.2 ⟨present, rfl⟩)
    | some slots =>
      obtain ⟨hall, rfl⟩ := mapM_eq_some_iff.1 hslots
      simp only [Bool.and_eq_true, List.all_eq_true, List.any_eq_true, List.mem_filterMap,
        decide_eq_true_eq]
      refine and_congr ⟨fun hlost y hy => ?_, ?_⟩ ⟨?_, ?_⟩
      · obtain ⟨slot, hslot⟩ := Option.isSome_iff_exists.1 (hall y hy)
        exact ⟨slot, hslot, hlost slot ⟨y, hy, hslot⟩⟩
      · rintro hlost slot ⟨y, hy, hslot⟩
        obtain ⟨other, hother, hne⟩ := hlost y hy
        obtain rfl := Option.some.inj (hother.symm.trans hslot)
        exact hne
      · rintro ⟨slot, ⟨y, hy, hslot⟩, hp⟩
        exact ⟨y, hy, slot, hslot, hp⟩
      · rintro ⟨y, hy, slot, hslot, hp⟩
        exact ⟨slot, ⟨y, hy, hslot⟩, hp⟩

/-- With one group size, a delivered slot that is retained after a move was retained before it. -/
theorem isRetained_of_move (hm : w.Move notes w') (h : w.Sound) (same : w'.groupSize = w.groupSize)
    (hold : w.slots.get? x = some old) (delivered : old.state.delivered)
    (hnew : w'.slots.get? x = some new) (retained : w'.isRetained x) : w.isRetained x := by
  have hcontains := SlotRing.isSome_get?_iff.1 (by rw [hold]; rfl : (w.slots.get? x).isSome)
  have hindex : w'.groupIndex x = w.groupIndex x := by rw [groupIndex, same, groupIndex]
  have hgroup : w'.groupNumbers x = w.groupNumbers x := by
    rw [groupNumbers, groupFirst, hindex, same, groupNumbers, groupFirst]
  obtain ⟨hsize, -, hwhy⟩ := ((hm.sound h).isRetained_iff hnew).1 retained
  rw [hindex, hgroup, same] at hwhy
  refine (h.isRetained_iff hold).2 ⟨same ▸ hsize, delivered, ?_⟩
  rcases hwhy with hreach | ⟨hall, y, hy, slot, hslot, hp⟩
  · have hgap := hm.gap_next_le h hcontains hnew
    exact .inl (by omega)
  · by_cases hnext : w.next ∈ w.groupNumbers x
    · exact .inl (h.gap_next_lt_of_mem hcontains hnext)
    -- All members were in the window before, so none is missing or lost that was not.
    have before : ∀ y ∈ w.groupNumbers x, ∀ {slot}, w'.slots.get? y = some slot →
        ∃ earlier, w.slots.get? y = some earlier ∧ w.Turns w' y earlier notes slot := by
      intro y hy slot hslot
      refine (hm.slot_cases h hslot).resolve_left fun harises => hnext ?_
      cases harises with
      | placeholder _ _ next => exact next ▸ hy
      | packet _ _ _ next => exact next ▸ hy
    refine .inr ⟨fun z hz => ?_, y, hy, ?_⟩
    · obtain ⟨slot, hslot, hne⟩ := hall z hz
      obtain ⟨earlier, hearlier, hturns⟩ := before z hz hslot
      exact ⟨earlier, hearlier, hturns.not_lost hne⟩
    · obtain ⟨earlier, hearlier, hturns⟩ := before y hy hslot
      exact ⟨earlier, hearlier, hturns.pending hp⟩

/-! ### Slots without data -/

/-- What is held for delivery has its data, and what was delivered has its data unless its group
needs it no more or it is excused. -/
structure Stocked (w : Window) (excused : SeqNum → Prop) : Prop where
  held : ∀ {x slot}, w.slots.get? x = some slot → slot.state = .haveData → slot.payload.isSome
  spent : ∀ {x slot}, w.slots.get? x = some slot → slot.IsSpent →
    slot.state = .committed ∧ w.isRetained x = false ∨ excused x

theorem stocked_of_empty (empty : w.slots.size = 0) (excused : SeqNum → Prop) : w.Stocked excused where
  held := fun {x} _ hs => by cases (get?_of_empty empty x).symm.trans hs
  spent := fun {x} _ hs => by cases (get?_of_empty empty x).symm.trans hs

/-- What is held for delivery after a move has its data. -/
theorem Move.payload_of_held {excused : SeqNum → Prop} (hm : w.Move notes w') (h : w.Sound)
    (hst : w.Stocked excused) (hs : w'.slots.get? x = some new) (hd : new.state = .haveData) :
    new.payload.isSome := by
  rcases hm.slot_cases h hs with harises | ⟨old, hold, hturns⟩
  · cases harises with
    | placeholder => cases hd
    | packet => rfl
  · cases hturns with
    | same => exact hst.held hold hd
    | fill => rfl
    | keep | commit => cases hd
    | wait pending waits =>
      have := waits.pending pending
      rw [hd] at this
      cases this
    | lose | spoil | orphan => cases old.state_lose.symm.trans hd
    | retain =>
      rcases old.retain_cases with he | ⟨-, he⟩ <;> rw [he] at hd ⊢
      · exact hst.held hold hd
      · cases hd
    | free =>
      rcases old.dropPayload_cases with he | ⟨hc, he⟩ <;> rw [he] at hd ⊢
      · exact hst.held hold hd
      · cases hc.symm.trans hd

/-- What was delivered has its data after a move unless its group needs it no more or it is excused. -/
theorem Move.unneeded_of_spent {excused : SeqNum → Prop} (hm : w.Move notes w') (h : w.Sound)
    (hst : w.Stocked excused) (same : w'.groupSize = w.groupSize)
    (hs : w'.slots.get? x = some new) (hspent : new.IsSpent) :
    new.state = .committed ∧ w'.isRetained x = false ∨ excused x := by
  obtain ⟨hd, hn⟩ := hspent
  rcases hm.slot_cases h hs with harises | ⟨old, hold, hturns⟩
  · cases harises <;> cases hd
  -- A slot that was spent before is not needed after the move either.
  have unneeded : old.state.delivered → w.isRetained x = false → w'.isRetained x = false := by
    intro hdelivered hfalse
    refine Bool.eq_false_iff.2 fun htrue => ?_
    rw [isRetained_of_move hm h same hold hdelivered hs htrue] at hfalse
    cases hfalse
  have stays : old.IsSpent → new.state = old.state →
      new.state = .committed ∧ w'.isRetained x = false ∨ excused x := by
    intro hspent hstate
    refine (hst.spent hold hspent).imp_left fun ⟨hc, hr⟩ => ?_
    exact ⟨hstate.trans hc, unneeded hspent.1 hr⟩
  cases hturns with
  | same => exact stays ⟨hd, hn⟩ rfl
  | fill | keep => cases hd
  | wait pending waits =>
    rw [SlotState.not_delivered_of_repairPending (waits.pending pending)] at hd
    cases hd
  | lose | spoil | orphan =>
    rw [old.state_lose] at hd
    cases hd
  | commit _ held =>
    have := hst.held hold held
    rw [show old.payload = none from hn] at this
    cases this
  | retain needed =>
    rcases old.retain_cases with he | ⟨hc, he⟩ <;> rw [he] at hd hn stays ⊢
    · exact stays ⟨hd, hn⟩ rfl
    · refine .inr ((hst.spent hold ⟨by rw [hc]; rfl, hn⟩).resolve_left fun ⟨_, hr⟩ => ?_)
      rw [needed] at hr
      cases hr
  | free free_of =>
    rcases old.dropPayload_cases with he | ⟨hc, he⟩
    · rw [he] at hd hn stays ⊢
      exact stays ⟨hd, hn⟩ rfl
    · refine .inl ⟨by rw [he]; exact hc, ?_⟩
      exact unneeded (by rw [hc]; rfl) free_of

theorem Move.stocked {excused : SeqNum → Prop} (hm : w.Move notes w') (h : w.Sound)
    (hst : w.Stocked excused) (same : w'.groupSize = w.groupSize) : w'.Stocked excused :=
  ⟨hm.payload_of_held h hst, hm.unneeded_of_spent h hst same⟩

theorem Moves.stocked {excused : SeqNum → Prop} (hm : w.Moves notes w') (h : w.Sound)
    (hst : w.Stocked excused) (steady : Note.regroups notes = 0) : w'.Stocked excused := by
  induction hm with
  | done => exact hst
  | next first _ ih =>
    rw [Note.regroups_append, Nat.add_eq_zero_iff] at steady
    exact ih (first.sound h) (first.stocked h hst (first.groupSize_eq (.inr steady.1))) steady.2

theorem Stocked.mono {excused more : SeqNum → Prop} (hst : w.Stocked excused)
    (h : ∀ x, excused x → more x) : w.Stocked more :=
  ⟨hst.held, fun hs hspent => (hst.spent hs hspent).imp_right (h _)⟩

/-! ### Histories -/

/-- The group size is another one after the move, and the slot of the number gave its data up before
it. -/
def Resized (w w' : Window) (x : SeqNum) : Prop :=
  w'.groupSize ≠ w.groupSize ∧ ∃ slot, w.slots.get? x = some slot ∧ slot.IsSpent

theorem stocked_announceGroups {excused : SeqNum → Prop} (hst : w.Stocked excused)
    (size shift : Nat) :
    (w.announceGroups size shift).Stocked
      fun x => excused x ∨ w.Resized (w.announceGroups size shift) x := by
  have same : w.Stocked fun x => excused x ∨ w.Resized w x := hst.mono fun _ => .inl
  rcases w.announceGroups_cases size shift with he | ⟨-, -, he⟩ <;> rw [he]
  · exact same
  · refine ⟨hst.held, fun {x slot} hs hspent => ?_⟩
    by_cases hsize : size = w.groupSize
    · subst hsize
      exact same.spent hs hspent
    · exact .inr (.inr ⟨hsize, slot, hs, hspent⟩)

theorem stocked_step {excused : SeqNum → Prop} (h : w.Sound) (live : w.isGone = false) {op : Op}
    (part : op.isPart) (stays : op ≠ .shutdown) (hst : w.Stocked excused) :
    (w.step op).1.Stocked fun x => excused x ∨ w.Resized (w.step op).1 x := by
  obtain ⟨notes, hmoves, htells⟩ := step_spec_of_ne h live part stays
  have steady : op.KeepsGroups →
      (w.step op).1.Stocked fun x => excused x ∨ w.Resized (w.step op).1 x :=
    fun hkeeps => (hmoves.stocked h hst (htells.regroups hkeeps)).mono fun _ => .inl
  cases op with
  | updateStatus trail lead size shift now =>
    clear hmoves htells steady
    simp only [step, updateStatus, whileLive_of_live live]
    change (w.acceptStatus trail lead size shift now).1.Stocked
      fun x => excused x ∨ w.Resized (w.acceptStatus trail lead size shift now).1 x
    by_cases malformed : lead.next.Before trail
    · rw [acceptStatus_of_malformed malformed]
      exact (w.moves_refuse.stocked h hst rfl).mono fun _ => .inl
    · obtain ⟨notes, hmoves, htook⟩ := moves_of_announced h malformed size shift now
      have hsteady := htook.regroups trivial
      have hafter := hmoves.stocked (h.announceGroups size shift)
        (stocked_announceGroups hst size shift) hsteady
      refine hafter.mono fun x => Or.imp_right ?_
      rw [Resized, Resized, hmoves.groupSize_eq hsteady]
      exact id
  | _ => exact steady trivial

/-- Once in the history the group size was changed when the slot of the number had given its data
up. -/
def ResizedWithout (w : Window) (ops : List Op) (x : SeqNum) : Prop :=
  ∃ before op after, ops = before ++ op :: after ∧
    (w.run before).Resized (w.run (before ++ [op])) x

theorem ResizedWithout.concat {ops : List Op} (h : w.ResizedWithout ops x) (op : Op) :
    w.ResizedWithout (ops ++ [op]) x := by
  obtain ⟨before, resize, after, rfl, hresized⟩ := h
  exact ⟨before, resize, after ++ [op], by simp, hresized⟩

theorem stocked_run (h : w.Sound) (hst : w.Stocked fun _ => False) {ops : List Op}
    (hparts : ∀ op ∈ ops, op.isPart) (live : (w.run ops).isGone = false) :
    (w.run ops).Stocked (w.ResizedWithout ops) := by
  induction ops using List.reverseRecOn with
  | nil => exact hst.mono fun _ => False.elim
  | append_singleton ops op ih =>
    have before := isGone_run_of_append live
    have earlier := ih (fun x hx => hparts x (List.mem_append_left _ hx)) before
    have stays : op ≠ .shutdown := by
      rintro rfl
      simp [run_concat, step, shutdown, before] at live
    have hstep := stocked_step (sound_run h before).1 before
      (hparts op (List.mem_append_right ops (List.mem_singleton_self op))) stays earlier
    rw [← run_concat] at hstep
    refine hstep.mono fun x => ?_
    rintro (hresized | hresized)
    · exact hresized.concat op
    · exact ⟨ops, op, [], rfl, hresized⟩

/-- A retained slot has its data, unless it gave the data up before the group size was changed. -/
theorem payload_of_retained (tsi : Tsi) (config : ValidConfig) (ops : List Op)
    (live : ((create tsi config).run ops).isGone = false) {x : SeqNum} {slot : Slot}
    (found : ((create tsi config).run ops).slots.get? x = some slot)
    (retained : slot.state = .retained) :
    slot.payload.isSome ∨ (create tsi config).ResizedWithout (parts ops) x := by
  rw [← run_parts] at live found
  have hst := stocked_run (sound_create tsi config) (stocked_of_empty rfl _) isPart_of_mem_parts live
  cases hpayload : slot.payload with
  | some => exact .inl rfl
  | none =>
    refine .inr ((hst.spent found ⟨by rw [retained]; rfl, hpayload⟩).resolve_left fun ⟨hc, _⟩ => ?_)
    cases retained.symm.trans hc

/-- The first packet of a group was read, and the second one did not come yet. -/
def retainedHistory : List Op := [smallPush 0 none 1, .read 1, .free]

theorem payload_of_retained_small :
    ((create smallTsi smallConfig).run retainedHistory).isGone = false ∧
      ∃ slot, ((create smallTsi smallConfig).run retainedHistory).slots.get? 0 = some slot ∧
        slot.state = .retained ∧ slot.payload.isSome := by
  obtain ⟨slot, found, retained⟩ : ∃ slot, ((create smallTsi smallConfig).run
      retainedHistory).slots.get? 0 = some slot ∧ slot.state = .retained := ⟨_, by rfl, by rfl⟩
  refine ⟨by rfl, slot, found, retained, ?_⟩
  refine (payload_of_retained smallTsi smallConfig retainedHistory (by rfl) found
    retained).resolve_right ?_
  rintro ⟨before, op, after, he, hsize, -⟩
  have hprefix : ∀ n ≤ 3, ((create smallTsi smallConfig).run
      ((parts retainedHistory).take n)).groupSize = 2 := by decide +kernel
  have hlength : before.length < 3 := by
    have := congrArg List.length he
    simp [retainedHistory, parts, Op.parts, smallPush] at this
    omega
  have hbefore := hprefix before.length (by omega)
  have hafter := hprefix (before ++ [op]).length (by simp; omega)
  rw [he, List.take_left] at hbefore
  rw [he, List.append_cons before op after, List.take_left] at hafter
  exact hsize (hafter.trans hbefore.symm)

/-- Both packets of a group were read and gave their data up. Then groups of four are announced, in
which another member is missing. -/
def resizedHistory : List Op :=
  [smallPush 0 none 1, smallPush 1 none 2, .read 2, .free, smallPush 3 none 4,
    .updateStatus 0 3 4 2 0, .release]

/-- The first slot is retained for its new group without its data. -/
theorem retained_without_payload :
    ((create smallTsi smallConfig).run resizedHistory).isGone = false ∧
      ∃ slot, ((create smallTsi smallConfig).run resizedHistory).slots.get? 0 = some slot ∧
        slot.state = .retained ∧ slot.payload = none :=
  ⟨by rfl, _, by rfl, by rfl, by rfl⟩

end Window

end ReliableMulticast
