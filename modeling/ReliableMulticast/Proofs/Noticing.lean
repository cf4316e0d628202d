import ReliableMulticast.Proofs.Lasting
import ReliableMulticast.Proofs.Rebuilding

/-!
# No repairable group goes unnoticed

A group becomes repairable only by a packet that is stored in it: the lead cannot move into a group
that keeps parity, as parity is kept only for groups that the lead has passed (`ParityWhole`), and a
member that is given up, delivered or freed never helps its group. So of all moves only those that
store a packet make a group repairable, and only the group of that packet (`Move.repairable_cases`).
The answer to the packet reports that group (`repairable_reported`).
-/

namespace ReliableMulticast

/-- The new slot serves its group as the old one did. -/
structure Slot.ServesAs (old new : Slot) : Prop where
  usable : old.isUsable
  member : new.member = old.member
  parity : new.parity = old.parity

/-- A slot with the same data serves its group in the same way. -/
theorem Slot.ServesAs.of_payload_eq {old new : Slot} (usable : new.isUsable) (alive : old.state ≠ .lost)
    (sequence : new.sequence = old.sequence) (held : new.state.hasData = old.state.hasData)
    (payload : new.payload = old.payload) (parity : new.parity = old.parity) : old.ServesAs new where
  usable := by
    have stocked := (Slot.isUsable_iff.1 usable).2
    rw [held, payload] at stocked
    exact Slot.isUsable_iff.2 ⟨alive, stocked⟩
  member := by rw [Slot.member, Slot.member, sequence, held, payload]
  parity := parity

namespace Window

variable {w w' : Window} {notes : List Note} {s x : SeqNum} {old new : Slot} {g : Group} {op : Op}

/-! ### Groups with parity -/

/-- A group that keeps parity ends at the lead or before it. -/
def ParityWhole (w : Window) : Prop :=
  ∀ x, ∀ q ∈ w.parityAt? x, w.groupSize ≤ x.gap w.next + w.groupIndex x

theorem parityWhole_of_empty (empty : w.slots.size = 0) : w.ParityWhole := by
  intro x q hq
  simp [parityAt?, get?_of_empty empty] at hq

/-- Parity is kept for a group that the lead has passed. -/
theorem Move.whole_of_kept {p : Packet} (hm : w.Move [.kept p] w') :
    w'.frame = w.frame ∧ ¬ (w.groupLast p.sequence).After w.lead := by
  cases hm with
  | keep s _ _ _ _ _ whole => exact ⟨frame_modify w s _, whole⟩

theorem contains_of_parityAt? {q : ParityPacket} (hq : q ∈ w.parityAt? x) : w.slots.Contains x := by
  obtain ⟨slot, hfound, -⟩ := Option.bind_eq_some_iff.1 hq
  exact contains_iff_place.2 (place_lt_of_get? hfound)

theorem Move.parityWhole (hm : w.Move notes w') (h : w.Sound) (hw : w.ParityWhole) :
    w'.ParityWhole := by
  intro x q hq
  rcases hm.parityAt?_cases h hq with hold | ⟨p, rfl, hmem, -⟩
  · obtain ⟨new, hnew, -⟩ := Option.bind_eq_some_iff.1 hq
    have hgap := hm.gap_next_le h (contains_of_parityAt? hold) hnew
    rw [groupIndex, hm.groupSize_eq (.inl (holdsGroupData_of_parityAt? hold))]
    exact Nat.le_trans (hw x q hold) (Nat.add_le_add_right hgap _)
  · obtain ⟨hframe, whole⟩ := hm.whole_of_kept
    have hcontains : w.slots.Contains x := by
      have hx := SlotRing.contains_iff_gap_lt.1 (contains_of_parityAt? hq)
      rwa [show w'.slots.trail = w.slots.trail from congrArg Frame.trail hframe,
        show w'.slots.size = w.slots.size from congrArg Frame.size hframe,
        ← SlotRing.contains_iff_gap_lt] at hx
    rw [groupLast, ← groupFirst_eq h hmem, ← SeqNum.prev_add _ h.groupSize_pos,
      h.after_lead_iff_groupIndex hcontains] at whole
    rw [groupIndex, show w'.groupSize = w.groupSize from congrArg Frame.groupSize hframe,
      next_of_frame_eq hframe]
    exact Nat.le_of_not_lt whole

theorem Moves.parityWhole (hm : w.Moves notes w') (h : w.Sound) (hw : w.ParityWhole) :
    w'.ParityWhole := by
  induction hm with
  | done => exact hw
  | next first _ ih => exact ih (first.sound h) (first.parityWhole h hw)

/-- No member of a group that keeps parity is still to come. -/
theorem ParityWhole.next_not_mem (hw : w.ParityWhole) (h : w.Sound) {q : ParityPacket}
    (hq : q ∈ w.parityAt? x) : w.next ∉ w.groupNumbers x := by
  intro hmem
  have hreach := h.gap_next_lt_of_mem (contains_of_parityAt? hq) hmem
  have := hw x q hq
  omega

/-! ### What makes a group repairable -/

/-- A member that serves its group after a move served it before in the same way, unless a packet was
stored in it. -/
theorem Turns.member_cases (ht : w.Turns w' x old notes new) (hold : w.slots.get? x = some old)
    (hnew : w'.slots.get? x = some new) (usable : new.isUsable) :
    old.ServesAs new ∨ (∃ p, notes = [.stored p] ∧ p.sequence = x) ∨
      ∃ p, notes = [.kept p] ∧ x ∈ w.groupNumbers p.sequence := by
  have hsequence : new.sequence = old.sequence :=
    (SlotRing.sequence_of_get? hnew).trans (SlotRing.sequence_of_get? hold).symm
  obtain ⟨alive, stocked⟩ := Slot.isUsable_iff.1 usable
  cases ht with
  | same => exact .inl ⟨usable, rfl, rfl⟩
  | fill p _ _ here => exact .inr (.inl ⟨p, rfl, here⟩)
  | keep p _ _ member => exact .inr (.inr ⟨p, rfl, member⟩)
  | wait pending waits =>
    refine .inl (.of_payload_eq usable (SlotState.ne_lost pending) hsequence ?_ waits.payload
      waits.parity)
    rw [SlotState.hasData_eq_false pending, SlotState.hasData_eq_false (waits.pending pending)]
  | lose | spoil | orphan => exact absurd old.state_lose alive
  | commit _ held =>
    exact .inl (.of_payload_eq usable (by rw [held]; nofun) rfl (by rw [held]; rfl) rfl rfl)
  | retain =>
    rcases old.retain_cases with he | ⟨hc, he⟩ <;> rw [he] at usable ⊢
    · exact .inl ⟨usable, rfl, rfl⟩
    · exact .inl (.of_payload_eq usable (by rw [hc]; nofun) rfl (by rw [hc]; rfl) rfl rfl)
  | free =>
    rcases old.dropPayload_cases with he | ⟨hc, he⟩ <;> rw [he] at usable stocked ⊢
    · exact .inl ⟨usable, rfl, rfl⟩
    · cases stocked (by rw [hc]; rfl)

/-- The members of the group of `s` serve it in the new window as they did in the old one. -/
def ServesAs (w w' : Window) (s : SeqNum) : Prop :=
  ∀ x ∈ w.groupNumbers s, ∃ old new, w.slots.get? x = some old ∧ w'.slots.get? x = some new ∧
    new.isUsable ∧ old.ServesAs new

theorem ServesAs.repairableGroup?_eq (h : w.ServesAs w' s) (same : w'.groupSize = w.groupSize)
    (session : w'.tsi = w.tsi) : w'.repairableGroup? s = w.repairableGroup? s := by
  have hfirst : w'.groupFirst s = w.groupFirst s := by rw [groupFirst, groupIndex, same, groupFirst, groupIndex]
  have hnumbers := groupNumbers_of_groupSize_eq same s
  -- What the group tells of its slots is the same for both windows.
  have told : ∀ {α : Type} (f : Slot → Option α),
      (∀ old new : Slot, old.ServesAs new → f new = f old) →
      ((w.groupNumbers s).filterMap w'.slots.get?).filterMap f =
        ((w.groupNumbers s).filterMap w.slots.get?).filterMap f := by
    intro α f hf
    rw [List.filterMap_filterMap, List.filterMap_filterMap]
    refine List.filterMap_congr fun x hx => ?_
    obtain ⟨old, new, hold, hnew, -, serves⟩ := h x hx
    rw [hold, hnew, Option.bind_some, Option.bind_some, hf old new serves]
  have members := told (fun slot => some slot.member) fun old new serves => congrArg some serves.member
  have parity := told Slot.parity fun old new serves => serves.parity
  rw [List.filterMap_eq_map'] at members
  have usable : ((w.groupNumbers s).filterMap w.slots.get?).all Slot.isUsable ∧
      ((w.groupNumbers s).filterMap w'.slots.get?).all Slot.isUsable := by
    rw [List.all_eq_true, List.all_eq_true]
    refine ⟨fun slot hslot => ?_, fun slot hslot => ?_⟩ <;>
      obtain ⟨x, hx, hfound⟩ := List.mem_filterMap.1 hslot <;>
      obtain ⟨old, new, hold, hnew, husable, serves⟩ := h x hx
    · obtain rfl := Option.some.inj (hold.symm.trans hfound)
      exact serves.usable
    · obtain rfl := Option.some.inj (hnew.symm.trans hfound)
      exact husable
  have present : (∀ x ∈ w.groupNumbers s, (w.slots.get? x).isSome) ∧
      ∀ x ∈ w.groupNumbers s, (w'.slots.get? x).isSome := by
    refine ⟨fun x hx => ?_, fun x hx => ?_⟩ <;> obtain ⟨old, new, hold, hnew, -⟩ := h x hx
    · rw [hold]
      rfl
    · rw [hnew]
      rfl
  rw [repairableGroup?, repairableGroup?, same, hnumbers, hfirst, session,
    mapM_eq_some_iff.2 ⟨present.1, rfl⟩, mapM_eq_some_iff.2 ⟨present.2, rfl⟩]
  simp only [members, parity, usable.1, usable.2]

/-- A group that is repairable keeps parity in one of its slots. -/
theorem Recoverable.exists_parityAt? (h : w.Recoverable s) :
    ∃ x ∈ w.groupNumbers s, ∃ q, q ∈ w.parityAt? x := by
  obtain ⟨x, hx, hparity⟩ := List.countP_pos_iff.1 (Nat.lt_of_lt_of_le h.missing h.enough)
  obtain ⟨slot, hslot, hparity⟩ := (Option.any_eq_true _ _).1 hparity
  obtain ⟨q, hq⟩ := Option.isSome_iff_exists.1 hparity
  exact ⟨x, hx, q, Option.bind_eq_some_iff.2 ⟨slot, hslot, hq⟩⟩

/-- A move makes a group repairable only by a packet that it stores in the group. -/
theorem Move.repairable_cases (hm : w.Move notes w') (h : w.Sound) (hw : w.ParityWhole)
    (hg : w'.repairableGroup? s = some g) :
    w.repairableGroup? s = some g ∨
      ∃ p ∈ Note.packets notes ++ Note.parities notes, p.sequence ∈ w'.groupNumbers s := by
  have hrecover := (repairableGroup?_eq_some_iff.1 hg).1
  obtain ⟨x, hx, q, hq⟩ := hrecover.exists_parityAt?
  rcases hm.parityAt?_cases h hq with hold | ⟨p, rfl, hmem, -⟩
  · have same := hm.groupSize_eq (.inl (holdsGroupData_of_parityAt? hold))
    have hgroup := groupNumbers_of_groupSize_eq same s
    have whole := hw.next_not_mem h hold
    rw [groupNumbers_eq h (hgroup ▸ hx)] at whole
    by_cases hstored : ∃ p ∈ Note.packets notes ++ Note.parities notes, p.sequence ∈ w'.groupNumbers s
    · exact .inr hstored
    have serves : w.ServesAs w' s := by
      intro y hy
      obtain ⟨new, hnew, usable⟩ := hrecover.usable y (hgroup ▸ hy)
      rcases hm.slot_cases h hnew with harises | ⟨old, hfound, hturns⟩
      · cases harises with
        | placeholder _ _ next => exact absurd (next ▸ hy) whole
        | packet p _ _ next => exact absurd (next ▸ hy) whole
      · refine ⟨old, new, hfound, hnew, usable, ?_⟩
        rcases hturns.member_cases hfound hnew usable with hserves | ⟨p, rfl, rfl⟩ | ⟨p, rfl, hmem⟩
        · exact hserves
        · exact absurd ⟨p, List.mem_append_left _ (List.mem_singleton_self p), hgroup ▸ hy⟩ hstored
        · refine absurd ⟨p, List.mem_append_right _ (List.mem_singleton_self p), ?_⟩ hstored
          rw [hgroup, mem_groupNumbers_iff h, ← (mem_groupNumbers_iff h).1 hmem]
          exact (mem_groupNumbers_iff h).1 hy
    rw [serves.repairableGroup?_eq same hm.keeps.tsi] at hg
    exact .inl hg
  · refine .inr ⟨p, List.mem_append_right _ (List.mem_singleton_self p), ?_⟩
    have same : w'.groupSize = w.groupSize := congrArg Frame.groupSize hm.whole_of_kept.1
    rw [groupNumbers_of_groupSize_eq same] at hx ⊢
    rw [mem_groupNumbers_iff h, ← (mem_groupNumbers_iff h).1 hmem]
    exact (mem_groupNumbers_iff h).1 hx

/-- The numbers of a group's members are those of the transmission group. -/
theorem numbers_of_repairable (hg : w.repairableGroup? s = some g) :
    g.members.map (·.sequence) = w.groupNumbers s := by
  obtain ⟨h, rfl⟩ := repairableGroup?_eq_some_iff.1 hg
  exact h.sequences

/-- The same over a step: one of its packets is stored in the group. -/
theorem Moves.repairable_cases (hm : w.Moves notes w') (h : w.Sound) (hw : w.ParityWhole)
    (hg : w'.repairableGroup? s = some g) :
    w.repairableGroup? s = some g ∨
      ∃ p ∈ Note.packets notes ++ Note.parities notes, p.sequence ∈ g.members.map (·.sequence) := by
  induction hm with
  | done => exact .inl hg
  | @next w v w' notes more first _ ih =>
    simp only [Note.packets_append, Note.parities_append, List.mem_append] at ih ⊢
    rcases ih (first.sound h) (first.parityWhole h hw) hg with hv | ⟨p, hp, hmem⟩
    · rcases first.repairable_cases h hw hv with hbefore | ⟨p, hp, hmem⟩
      · exact .inl hbefore
      · rw [← numbers_of_repairable hv] at hmem
        exact .inr ⟨p, (List.mem_append.1 hp).imp .inl .inl, hmem⟩
    · exact .inr ⟨p, hp.imp .inr .inr, hmem⟩

/-- Members of one group tell the same group. -/
theorem repairableGroup?_eq_of_mem (h : w.Sound) (hx : x ∈ w.groupNumbers s) :
    w.repairableGroup? x = w.repairableGroup? s := by
  rw [repairableGroup?, repairableGroup?, groupNumbers_eq h hx, groupFirst_eq h hx]

/-! ### What answers report -/

/-- The receipt reports the group of the number as the window has it. -/
def Reports (answer : Window × Receipt) (s : SeqNum) : Prop :=
  answer.2.repairable = answer.1.repairableGroup? s

theorem reports_acceptData {p : Packet} {source : Option RepairSource} {now : Timestamp}
    (stores : (w.acceptData p source now).2.outcome.stores) :
    Reports (w.acceptData p source now) p.sequence := by
  cases hm : w.isMalformed p with
  | true =>
    rw [acceptData_of_malformed hm] at stores
    cases stores
  | false =>
    have htakes := takes_acceptData hm source now
    generalize w.acceptData p source now = answer at stores htakes
    cases htakes with
    | behind | lost | duplicate => cases stores
    | ahead | missing => rfl

theorem reports_storeParity {p : Packet} {outcome : Outcome}
    (consumed : (w.storeParity p outcome).2.consumed) :
    Reports (w.storeParity p outcome) p.sequence := by
  have stores := w.storesParity p outcome
  generalize w.storeParity p outcome = answer at *
  cases stores with
  | lost | duplicate => cases consumed
  | keep => rfl

theorem reports_acceptParity {p : Packet} {now : Timestamp}
    (consumed : (w.acceptParity p now).2.consumed) : Reports (w.acceptParity p now) p.sequence := by
  unfold acceptParity at consumed ⊢
  split at consumed
  · cases consumed
  next hsize =>
    rw [if_neg hsize]
    simp only at consumed ⊢
    split at consumed
    · cases consumed
    next hbefore =>
      rw [if_neg hbefore]
      split at consumed
      next hafter =>
        rw [if_pos hafter]
        exact reports_storeParity consumed
      next hafter =>
        rw [if_neg hafter]
        exact reports_storeParity consumed

/-- What is stored was a packet of the window's session, and the window is not gone. -/
theorem forSession_of {tsi : Tsi} {accept : Window → Window × Receipt} (taken : Receipt → Bool)
    (turnedAway : ∀ o : Outcome, o.stores = false → taken (.of o) = false)
    (h : taken (w.forSession tsi accept).2) : w.forSession tsi accept = accept w := by
  unfold forSession whileLive at h ⊢
  split at h
  · rw [turnedAway _ rfl] at h
    cases h
  next hsession =>
    rw [if_neg hsession]
    split at h
    · rw [turnedAway _ rfl] at h
      cases h
    next hlive => rw [if_neg hlive]

/-- The operation brings a packet, of data or of parity. -/
def Op.bringsPacket : Op → Bool
  | .push .. | .pushRepair .. | .pushParity .. => true
  | _ => false

/-- The answer to a packet that is stored reports its group as the window has it then. -/
theorem reported_of_stored {p : Packet}
    (hp : p ∈ op.accepted (w.step op).2 ++ op.kept (w.step op).2) :
    op.bringsPacket ∧ (w.step op).2.reported = (w.step op).1.repairableGroup? p.sequence := by
  have data : ∀ {q : Packet} {source : Option RepairSource} {now : Timestamp},
      p ∈ (if (w.forSession q.tsi (·.acceptData q source now)).2.outcome.stores then [q] else []) →
      Reports (w.forSession q.tsi (·.acceptData q source now)) p.sequence := by
    intro q source now hp
    split at hp
    next stores =>
      obtain rfl := List.mem_singleton.1 hp
      have hsame := forSession_of (·.outcome.stores) (fun _ ho => ho) stores
      rw [hsame] at stores ⊢
      exact reports_acceptData stores
    · cases hp
  cases op with
  | push => exact ⟨rfl, data ((List.mem_append.1 hp).resolve_right List.not_mem_nil)⟩
  | pushRepair => exact ⟨rfl, data ((List.mem_append.1 hp).resolve_right List.not_mem_nil)⟩
  | pushParity q now =>
    change p ∈ if (w.pushParity q now).2.consumed then [q] else [] at hp
    split at hp
    next consumed =>
      obtain rfl := List.mem_singleton.1 hp
      have hsame := forSession_of (·.consumed) (fun _ _ => rfl) consumed
      refine ⟨rfl, ?_⟩
      change Reports (w.pushParity p now) p.sequence
      rw [pushParity, hsame]
      rw [pushParity, hsame] at consumed
      exact reports_acceptParity consumed
    · cases hp
  | _ => cases hp

/-- A step that makes a group repairable reports it. -/
theorem reported_of_repairable (h : w.Sound) (hw : w.ParityWhole) (live : w.isGone = false)
    (part : op.isPart) (stays : op ≠ .shutdown) (before : w.repairableGroup? s ≠ some g)
    (after : (w.step op).1.repairableGroup? s = some g) :
    op.bringsPacket ∧ (w.step op).2.reported = some g := by
  obtain ⟨notes, hmoves, htells⟩ := step_spec_of_ne h live part stays
  obtain ⟨p, hp, hmem⟩ := (hmoves.repairable_cases h hw after).resolve_left before
  rw [htells.packets, htells.parities] at hp
  obtain ⟨hbrings, hreported⟩ := reported_of_stored hp
  rw [numbers_of_repairable after] at hmem
  exact ⟨hbrings, by rw [hreported, repairableGroup?_eq_of_mem (hmoves.sound h) hmem, after]⟩

/-! ### Histories -/

theorem parityWhole_run (h : w.Sound) (hw : w.ParityWhole) {ops : List Op}
    (live : (w.run ops).isGone = false) : (w.run ops).ParityWhole := by
  rw [← run_parts] at live ⊢
  refine (history_induction (motive := fun ops => (w.run ops).ParityWhole) h hw ?_
    isPart_of_mem_parts live).2
  exact fun ops op notes hsound hmoves _ hwhole => hmoves.parityWhole hsound hwhole

/-- Among steps of which none made the window gone, one reported the group that became repairable. -/
theorem exists_reporting_part (h : w.Sound) (hw : w.ParityWhole) (live : w.isGone = false)
    {ops : List Op} (parts : ∀ op ∈ ops, op.isPart ∧ op ≠ .shutdown)
    (before : w.repairableGroup? s ≠ some g) (after : (w.run ops).repairableGroup? s = some g) :
    ∃ first part rest, ops = first ++ part :: rest ∧ part.bringsPacket ∧
      ((w.run first).step part).2.reported = some g := by
  induction ops generalizing w with
  | nil => exact absurd after before
  | cons op ops ih =>
    obtain ⟨part, stays⟩ := parts op (List.mem_cons_self ..)
    by_cases hstep : (w.step op).1.repairableGroup? s = some g
    · exact ⟨[], op, ops, rfl, reported_of_repairable h hw live part stays before hstep⟩
    · obtain ⟨notes, hmoves, -⟩ := step_spec_of_ne h live part stays
      obtain ⟨first, part, rest, rfl, hbrings, hreported⟩ :=
        ih (hmoves.sound h) (hmoves.parityWhole h hw) (hmoves.keeps.isGone.trans live)
          (fun x hx => parts x (List.mem_cons_of_mem op hx)) hstep after
      exact ⟨op :: first, part, rest, rfl, hbrings, hreported⟩

theorem repairableGroup?_of_empty (empty : w.slots.size = 0) : w.repairableGroup? s = none := by
  refine Option.eq_none_iff_forall_ne_some.2 fun g hg => ?_
  obtain ⟨x, -, q, hq⟩ := (repairableGroup?_eq_some_iff.1 hg).1.exists_parityAt?
  have := place_lt_of_get? (Option.bind_eq_some_iff.1 hq).choose_spec.1
  omega

theorem Op.ne_shutdown_of_mem_parts (stays : op ≠ .shutdown) : ∀ part ∈ op.parts, part ≠ .shutdown := by
  intro part hpart
  cases op with
  | repair g decode now =>
    obtain ⟨s, payload, -, -, rfl⟩ := Op.exists_of_mem_repairs hpart
    nofun
  | _ =>
    obtain rfl := List.mem_singleton.1 hpart
    exact stays

/-- No repairable group goes unnoticed: if an operation makes a group repairable, one of its parts
brought a packet, and the answer to that packet reported the group. -/
theorem repairable_reported (tsi : Tsi) (config : ValidConfig) {ops : List Op}
    (live : ((create tsi config).run ops).isGone = false) {op : Op} {s : SeqNum} {g : Group}
    (before : ((create tsi config).run ops).repairableGroup? s = none)
    (after : (((create tsi config).run ops).step op).1.repairableGroup? s = some g) :
    ∃ first part rest, op.parts = first ++ part :: rest ∧ part.bringsPacket ∧
      ((((create tsi config).run ops).run first).step part).2.reported = some g := by
  have h := (sound_run (sound_create tsi config) live).1
  have hw := parityWhole_run (sound_create tsi config) (parityWhole_of_empty rfl) live
  generalize (create tsi config).run ops = w at *
  have hparts : parts [op] = op.parts := List.flatMap_singleton ..
  have stays : op ≠ .shutdown := by
    rintro rfl
    have hempty : (w.step .shutdown).1.slots.size = 0 := by
      simp only [step, shutdown, live]
      rfl
    cases (repairableGroup?_of_empty hempty).symm.trans after
  refine exists_reporting_part h hw live (fun part hpart => ⟨?_, ?_⟩) (before ▸ (Option.some_ne_none g).symm) ?_
  · exact isPart_of_mem_parts part (hparts ▸ hpart)
  · exact Op.ne_shutdown_of_mem_parts stays part hpart
  · rw [← hparts, run_parts]
    exact after

/-- The second parity packet makes a group repairable that misses both of its packets. -/
theorem repairable_reported_small :
    ((create smallTsi smallConfig).run [smallParity 0]).repairableGroup? 0 = none ∧
    ∃ g, (((create smallTsi smallConfig).run [smallParity 0]).step (smallParity 1)).1.repairableGroup?
        0 = some g ∧
      ∃ first part rest, (smallParity 1).parts = first ++ part :: rest ∧ part.bringsPacket ∧
        ((((create smallTsi smallConfig).run [smallParity 0]).run first).step part).2.reported =
          some g := by
  have before : ((create smallTsi smallConfig).run [smallParity 0]).repairableGroup? 0 = none := by rfl
  obtain ⟨g, after⟩ : ∃ g, (((create smallTsi smallConfig).run [smallParity 0]).step
      (smallParity 1)).1.repairableGroup? 0 = some g := ⟨_, by rfl⟩
  exact ⟨before, g, after, repairable_reported smallTsi smallConfig (by decide +kernel) before after⟩

end Window

end ReliableMulticast
