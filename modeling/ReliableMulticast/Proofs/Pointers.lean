import ReliableMulticast.Proofs.History

/-!
# The four numbers of a window

The picture of a window is true after every history: its four numbers divide the tracked stretch in
order, every number of the stretch has its own slot, and the state of a slot says on which side of
the two inner numbers it stands.
-/

namespace ReliableMulticast.Window

/-- The window tracks `n` numbers; `commitTrail` stands `i` and `commitLead` `j` steps from the
trail. -/
structure Divided (w : Window) (i j n : Nat) : Prop where
  inner : i ≤ j
  outer : j ≤ n
  fits : n ≤ w.capacity
  commitTrail : w.commitTrail = w.trail + i
  commitLead : w.commitLead = w.trail + j
  lead : w.lead.next = w.trail + n
  /-- Every number tracked has the slot of that number. -/
  slot : ∀ k, k < n → ∃ slot, w.slots.get? (w.trail + k) = some slot ∧ slot.sequence = w.trail + k
  /-- No other number has one. -/
  tracked : ∀ x slot, w.slots.get? x = some slot → ∃ k, k < n ∧ x = w.trail + k
  behind : ∀ k slot, k < i → w.slots.get? (w.trail + k) = some slot →
    slot.state = .committed ∨ slot.state = .retained ∨ slot.state = .lost
  readable : ∀ k slot, i ≤ k → k < j → w.slots.get? (w.trail + k) = some slot →
    slot.state = .haveData ∨ slot.state = .lost
  ahead : ∀ k slot, i ≤ k → k < n → w.slots.get? (w.trail + k) = some slot →
    slot.state ≠ .committed ∧ slot.state ≠ .retained

theorem Sound.divided {w : Window} (h : w.Sound) :
    w.Divided (w.place w.commitTrail) (w.place w.commitLead) w.slots.size := by
  have hct := h.place_commitTrail_le
  have hcl := h.commitLead_le
  have hsize := h.size_le
  have hplace : ∀ {k : Nat}, k < 4294967296 → w.place (w.trail + k) = k :=
    fun hk => SeqNum.gap_add _ hk
  refine ⟨h.commitTrail_le, hcl, w.slots.size_le, (w.trail_add_place _).symm,
    (w.trail_add_place _).symm, SeqNum.prev_next _, ?_, ?_, ?_, ?_, ?_⟩
  · intro k hk
    obtain ⟨slot, hs⟩ := SlotRing.exists_get? (SlotRing.contains_iff.2 ⟨k, hk, rfl⟩)
    exact ⟨slot, hs, SlotRing.sequence_of_get? hs⟩
  · intro x slot hs
    exact ⟨w.place x, place_lt_of_get? hs, (w.trail_add_place x).symm⟩
  · intro k slot hk hs
    have hpk := hplace (k := k) (by omega)
    have hbehind := (h.slots hs).settled (by omega)
    revert hbehind
    cases slot.state <;> simp [SlotState.delivered]
  · intro k slot hi hj hs
    have hpk := hplace (k := k) (by omega)
    have hdata := h.hasData_or_lost hs (by omega) (by omega)
    have hundelivered := (h.slots hs).undelivered (by omega)
    revert hdata hundelivered
    cases slot.state <;> simp [SlotState.delivered, SlotState.hasData]
  · intro k slot hi hk hs
    have hpk := hplace (k := k) (by omega)
    have hundelivered := (h.slots hs).undelivered (by omega)
    revert hundelivered
    cases slot.state <;> simp [SlotState.delivered]

/-- After every history that does not shut it down, a window is divided by its four numbers, and its
groups have a size that it can work with. -/
theorem divided_run (tsi : Tsi) (config : ValidConfig) (ops : List Op)
    (live : ((create tsi config).run ops).isGone = false) :
    (∃ i j n, ((create tsi config).run ops).Divided i j n) ∧
      ((create tsi config).run ops).capacity = config.1.capacity.toNat ∧
      (∃ e, ((create tsi config).run ops).groupSize = 2 ^ e) ∧
      ((create tsi config).run ops).groupSize ≤ min 128 ((create tsi config).run ops).capacity := by
  obtain ⟨h, hkeeps⟩ := sound_run (sound_create tsi config) live
  refine ⟨⟨_, _, _, h.divided⟩, ?_, ?_, Nat.le_min.2 ⟨h.groupSize.2, h.groupSize_le⟩⟩
  · rw [h.capacity, hkeeps.config]
    rfl
  · exact ⟨_, h.groupSize.1.trans (Nat.one_shiftLeft _)⟩

/-- A delivered slot, one that is ready to be read, a missing one and one that waits for it. -/
def dividedHistory : List Op :=
  [smallPush 4294967295 none 1, smallPush 0 none 2, .read 1, smallPush 2 none 3]

theorem divided_run_small :
    ((create smallTsi smallConfig).run dividedHistory).isGone = false ∧
      ((create smallTsi smallConfig).run dividedHistory).trail = 4294967295 ∧
      ((create smallTsi smallConfig).run dividedHistory).commitTrail = 0 ∧
      ((create smallTsi smallConfig).run dividedHistory).commitLead = 1 ∧
      ((create smallTsi smallConfig).run dividedHistory).lead = 2 ∧
      ∃ i j n, ((create smallTsi smallConfig).run dividedHistory).Divided i j n :=
  ⟨by decide +kernel, by decide +kernel, by decide +kernel, by decide +kernel, by decide +kernel,
    (divided_run smallTsi smallConfig dividedHistory (by decide +kernel)).1⟩

end ReliableMulticast.Window
