import ReliableMulticast.Proofs.Lockstep
import ReliableMulticast.Proofs.Retention

/-!
# What holds the trail back

Reclaiming ends at the reader or in front of a delivered slot that its group needs
(`releaseUpTo_stops`). The slot is of use (`Helps`) if the group can still be repaired: nothing of it
up to the lead is lost or has left the window, and a member is missing or still to come. A slot whose
group ends within the window holds the trail back for no other reason. A group that reaches beyond
the lead is not looked at, so there a slot may hold the trail back for nothing.
-/

namespace ReliableMulticast.Window

variable {w : Window} {x : SeqNum}

/-- The data of `x` may still repair its group: all members up to the lead are in the window and none
of them is lost, and one is missing or still to come. -/
structure Helps (w : Window) (x : SeqNum) : Prop where
  whole : ∀ y ∈ w.groupNumbers x, ¬ y.After w.lead →
    ∃ slot, w.slots.get? y = some slot ∧ slot.state ≠ .lost
  wanted : ∃ y ∈ w.groupNumbers x, w.IsMissing y ∨ y.After w.lead

/-- The group of `x` cannot be repaired: a member that is not beyond the lead is lost or not in the
window. -/
def Hopeless (w : Window) (x : SeqNum) : Prop :=
  ∃ y ∈ w.groupNumbers x, ¬ y.After w.lead ∧ ∀ slot, w.slots.get? y = some slot → slot.state = .lost

theorem groupLast_mem (h : w.Sound) (x : SeqNum) : w.groupLast x ∈ w.groupNumbers x :=
  SeqNum.mem_run.2 ⟨w.groupSize - 1, Nat.sub_lt h.groupSize_pos Nat.one_pos, rfl⟩

theorem Hopeless.not_helps (h : w.Hopeless x) : ¬ w.Helps x := by
  rintro ⟨whole, -⟩
  obtain ⟨y, hy, inside, lost⟩ := h
  obtain ⟨slot, found, alive⟩ := whole y hy inside
  exact alive (lost slot found)

/-- A group that reaches beyond the lead is of use unless it is past hope. -/
theorem helps_or_hopeless (h : w.Sound) (ahead : (w.groupLast x).After w.lead) :
    w.Helps x ∨ w.Hopeless x := by
  refine or_iff_not_imp_right.2 fun hope => ⟨fun y hy inside => ?_, _, groupLast_mem h x, .inr ahead⟩
  by_contra hnone
  refine hope ⟨y, hy, inside, fun slot found => ?_⟩
  by_contra alive
  exact hnone ⟨slot, found, alive⟩

theorem state_retain_of_delivered {slot : Slot} (delivered : slot.state.delivered) :
    slot.retain.state = .retained := by
  unfold Slot.retain
  split
  · rfl
  next hc =>
    revert delivered hc
    cases slot.state <;> decide

/-- Retaining a slot changes nothing of what it is retained for. -/
theorem isRetained_retain (h : w.Sound) (behind : w.place x < w.place w.commitTrail) {old : Slot}
    (found : w.slots.get? x = some old) (retained : w.isRetained x) :
    (w.modify x Slot.retain).isRetained x ∧
      ∃ new, (w.modify x Slot.retain).slots.get? x = some new ∧ new.state = .retained := by
  obtain ⟨grouped, delivered, why⟩ := (h.isRetained_iff found).1 retained
  have hstate := state_retain_of_delivered delivered
  have hnext : (w.modify x Slot.retain).next = w.next := next_of_frame_eq (frame_modify ..)
  have here : (w.modify x Slot.retain).slots.get? x =
      some { old.retain with sequence := old.sequence } := by
    rw [get?_modify, if_pos rfl, found]
    rfl
  have apart : ∀ {y}, y ≠ x → (w.modify x Slot.retain).slots.get? y = w.slots.get? y :=
    fun hy => by rw [get?_modify, if_neg hy]
  refine ⟨((h.retain behind).isRetained_iff here).2 ⟨grouped, ?_, ?_⟩, _, here, hstate⟩
  · rw [hstate]
    rfl
  refine why.imp (fun reaches => ?_) fun ⟨whole, y, hy, slot, hslot, pending⟩ => ⟨fun z hz => ?_, ?_⟩
  · rwa [hnext]
  · by_cases hzx : z = x
    · rw [hzx]
      exact ⟨_, here, by simp [hstate]⟩
    · rw [apart hzx]
      exact whole z hz
  · refine ⟨y, hy, slot, ?_, pending⟩
    rw [apart, hslot]
    rintro rfl
    obtain rfl := Option.some.inj (found.symm.trans hslot)
    rw [SlotState.not_delivered_of_repairPending pending] at delivered
    cases delivered

/-- Reclaiming ends at the reader or in front of a slot that is retained. -/
theorem releaseUpTo_stops (limit : Nat) (h : w.Sound) (enough : w.place w.commitTrail ≤ limit) :
    let w' := (releaseUpTo limit w).1
    w'.trail = w'.commitTrail ∨ w'.isRetained w'.trail ∧
      ∃ slot, w'.slots.get? w'.trail = some slot ∧ slot.state = .retained := by
  have releases := releases_releaseUpTo limit w
  generalize (releaseUpTo limit w).1 = w' at releases ⊢
  induction releases with
  | @done _ w stop =>
    rw [h.trail_before_iff] at stop
    exact .inl (place_inj (w := w) (w.place_trail.trans (by omega)))
  | @hold _ w before retained =>
    have behind := h.trail_before_iff.1 before
    have hle := h.place_commitTrail_le
    have htrail := w.place_trail
    obtain ⟨old, found⟩ :=
      SlotRing.exists_get? (contains_iff_place.2 (show w.place w.trail < w.slots.size by omega))
    have same : (w.modify w.trail Slot.retain).trail = w.trail :=
      congrArg Frame.trail (frame_modify ..)
    simp only [same]
    exact .inr (isRetained_retain h (by omega) found retained)
  | drop before unneeded later ih =>
    have behind := h.trail_before_iff.1 before
    have hplace := h.place_dropTrail behind
    exact ih (h.reclaim behind) (by omega)

theorem groupLast_after_lead_iff (h : w.Sound) (hx : w.slots.Contains x) :
    (w.groupLast x).After w.lead ↔ x.gap w.next + w.groupIndex x < w.groupSize := by
  rw [← h.after_lead_iff_groupIndex hx, SeqNum.prev_add _ h.groupSize_pos, groupLast]

/-- A retained slot is of use to its group, or the group reaches beyond the lead and is past hope. -/
theorem helps_of_isRetained (h : w.Sound) {slot : Slot} (found : w.slots.get? x = some slot)
    (retained : w.isRetained x) :
    1 < w.groupSize ∧ (w.Helps x ∨ (w.groupLast x).After w.lead ∧ w.Hopeless x) := by
  obtain ⟨grouped, -, why⟩ := (h.isRetained_iff found).1 retained
  refine ⟨grouped, ?_⟩
  rcases why with reaches | ⟨whole, y, hy, missing⟩
  · have ahead := (groupLast_after_lead_iff h (contains_of_get? found)).2 reaches
    exact (helps_or_hopeless h ahead).imp_right fun hopeless => ⟨ahead, hopeless⟩
  · exact .inl ⟨fun z hz _ => whole z hz, y, hy, .inl missing⟩

theorem releaseDelivered_held_iff (h : w.Sound) {w' : Window} (released : w.releaseDelivered.1 = w') :
    w'.trail ≠ w'.commitTrail ↔
      (∃ slot, w'.slots.get? w'.trail = some slot ∧ slot.state = .retained) ∧ 1 < w'.groupSize ∧
        (w'.Helps w'.trail ∨ (w'.groupLast w'.trail).After w'.lead ∧ w'.Hopeless w'.trail) := by
  have stops := releaseUpTo_stops (w.trail.gap w.commitTrail) h (Nat.le_refl _)
  have h' := (moves_releaseUpTo (w.trail.gap w.commitTrail) h).sound h
  rw [releaseDelivered] at released
  simp only [released] at stops h'
  constructor
  · intro held
    obtain ⟨retained, slot, found, state⟩ := stops.resolve_left held
    exact ⟨⟨slot, found, state⟩, helps_of_isRetained h' found retained⟩
  · rintro ⟨⟨slot, found, state⟩, -⟩ reached
    -- At the reader nothing is delivered.
    have undelivered := (h'.slots found).undelivered (by rw [reached]; exact Nat.lt_irrefl _)
    rw [state] at undelivered
    cases undelivered

/-- Reclaiming stops in front of the reader exactly if the slot at the trail is retained and of use to
its group, or its group is past hope and reaches beyond the lead. -/
theorem held_back_iff (tsi : Tsi) (config : ValidConfig) (ops : List Op)
    (live : ((create tsi config).run ops).isGone = false) :
    let w := ((create tsi config).run ops).release.1
    w.trail ≠ w.commitTrail ↔
      (∃ slot, w.slots.get? w.trail = some slot ∧ slot.state = .retained) ∧ 1 < w.groupSize ∧
        (w.Helps w.trail ∨ (w.groupLast w.trail).After w.lead ∧ w.Hopeless w.trail) := by
  obtain ⟨h, -⟩ := sound_run (sound_create tsi config) live
  exact releaseDelivered_held_iff h (congrArg Prod.fst (whileLive_of_live live)).symm

/-- The first packet of a group was read, and the second one is still to come. -/
theorem held_back_iff_small :
    let w := ((create smallTsi smallConfig).run [smallPush 0 none 1, .read 1]).release.1
    ((create smallTsi smallConfig).run [smallPush 0 none 1, .read 1]).isGone = false ∧
      w.trail ≠ w.commitTrail ∧ 1 < w.groupSize ∧ w.Helps w.trail := by
  have held := held_back_iff smallTsi smallConfig [smallPush 0 none 1, .read 1] (by decide +kernel)
  have stops : ((create smallTsi smallConfig).run [smallPush 0 none 1, .read 1]).release.1.trail ≠
      ((create smallTsi smallConfig).run [smallPush 0 none 1, .read 1]).release.1.commitTrail := by
    decide +kernel
  obtain ⟨-, grouped, helps | ⟨-, hopeless⟩⟩ := held.1 stops
  · exact ⟨by decide +kernel, stops, grouped, helps⟩
  · obtain ⟨y, hy, inside, lost⟩ := hopeless
    obtain rfl | rfl : y = 0 ∨ y = 1 := by
      rw [show groupNumbers _ _ = [0, 1] by decide +kernel] at hy
      simpa using hy
    · cases lost _ rfl
    · exact absurd (by decide +kernel) inside

/-- Groups of four. -/
def wideConfig : ValidConfig :=
  ⟨{ smallConfig.1 with groupSize := 4, capacity := 8 }, by decide⟩

/-- The data begins with the second packet of a group, so that the first one is never in the window,
and yet reclaiming stops in front of the second. -/
theorem late_join_holds_back :
    let w := ((create smallTsi wideConfig).run [smallPush 1 none 1, .read 1]).release.1
    ((create smallTsi wideConfig).run [smallPush 1 none 1, .read 1]).isGone = false ∧
      w.trail ≠ w.commitTrail ∧ w.Hopeless w.trail ∧ ¬ w.Helps w.trail := by
  have hopeless : (((create smallTsi wideConfig).run [smallPush 1 none 1, .read 1]).release.1).Hopeless
      (((create smallTsi wideConfig).run [smallPush 1 none 1, .read 1]).release.1).trail :=
    ⟨0, by decide +kernel, by decide +kernel, fun slot found => by cases found⟩
  exact ⟨by decide +kernel, by decide +kernel, hopeless, hopeless.not_helps⟩

end ReliableMulticast.Window
