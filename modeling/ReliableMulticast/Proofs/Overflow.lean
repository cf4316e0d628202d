import ReliableMulticast.Proofs.Batches

/-!
# When the losses that a read tells are too many to count

The losses not yet told are counted up to a greatest number and then no further, so they are exactly
the numbers that left the window since the last read, cut off there (`unreported_eq_departed`). A
read adds to them the losses that it finds itself (`Sound.losses_readReady`), and that sum is not cut
off: it is too great to be counted exactly if the numbers that left and the losses still in the
window are together too many, and there is such a loss (`tells_too_many_iff`).
-/

namespace ReliableMulticast.Window

variable {w : Window}

/-! ### What left since the last read -/

/-- How many numbers left the window undelivered since the last read, of which there were `n` when
the history began. -/
def departed (w : Window) (n : Nat) : List Op → Nat
  | [] => n
  | .read count :: ops => departed (w.step (.read count)).1 0 ops
  | op :: ops => departed (w.step op).1 (n + w.leaving (w.step op).1) ops

theorem departed_read (w : Window) (n : Nat) (ops : List Op) (count : Nat) :
    w.departed n (ops ++ [.read count]) = 0 := by
  induction ops generalizing w n with
  | nil => rfl
  | cons op ops ih => cases op <;> exact ih ..

theorem departed_concat (w : Window) (n : Nat) (ops : List Op) {op : Op}
    (unread : ∀ count, op ≠ .read count) :
    w.departed n (ops ++ [op]) = w.departed n ops + (w.run ops).leaving (w.run (ops ++ [op])) := by
  rw [run_concat]
  induction ops generalizing w n with
  | nil =>
    cases op with
    | read count => exact absurd rfl (unread count)
    | _ => rfl
  | cons first ops ih => cases first <;> exact ih ..

/-- The losses not yet told are the numbers that left, as far as they can be counted. -/
theorem unreported_eq_departed (h : w.Sound) (told : w.unreportedLosses = 0) {ops : List Op}
    (parts : ∀ op ∈ ops, op.isPart) (live : (w.run ops).isGone = false) :
    (w.run ops).unreportedLosses = min (w.departed 0 ops) maxReported := by
  induction ops using List.reverseRecOn with
  | nil => exact told
  | append_singleton ops op ih =>
    have before := isGone_run_of_append live
    have part := parts op (List.mem_append_right ops (List.mem_singleton_self op))
    have hold := ih (fun x hx => parts x (List.mem_append_left _ hx)) before
    obtain ⟨hsound, -⟩ := sound_run h before
    by_cases hread : ∃ count, op = .read count
    · obtain ⟨count, rfl⟩ := hread
      rw [departed_read, run_concat, step_read before, unreportedLosses_readReady]
      exact (Nat.zero_min _).symm
    · have unread : ∀ count, op ≠ .read count := fun count he => hread ⟨count, he⟩
      rw [departed_concat w 0 ops unread, run_concat]
      rw [run_concat] at live
      rw [unreportedLosses_step hsound before part live unread (by rw [hold]; exact Nat.min_le_right ..),
        hold]
      omega

/-! ### What a read adds -/

/-- What a read comes to is the losses not yet told, which are the numbers that left since the last read
as far as they can be counted, and the losses that it steps over itself. These come on top without a
limit: some read comes to more than can be counted, so that its count runs over, if and only if there
are any and they are too many together with the numbers that left. -/
theorem tells_too_many_iff (tsi : Tsi) (config : ValidConfig) {ops : List Op}
    (live : ((create tsi config).run ops).isGone = false) :
    let w := (create tsi config).run ops
    let left := (create tsi config).departed 0 (parts ops)
    w.unreportedLosses = min left maxReported ∧
      (∀ count, (w.read count).2.losses ≤ w.unreportedLosses + w.readableLosses ∧
        (w.commitTrail.gap w.commitLead ≤ count →
          (w.read count).2.losses = w.unreportedLosses + w.readableLosses)) ∧
      ((∃ count, maxReported < (w.read count).2.losses) ↔
        maxReported < left + w.readableLosses ∧ 0 < w.readableLosses) := by
  intro w left
  obtain ⟨h, -⟩ := sound_run (sound_create tsi config) live
  have hread : ∀ count, w.read count = w.readReady count := fun _ => whileLive_of_live live
  have hlost : ∀ count, (w.read count).2.losses ≤ w.unreportedLosses + w.readableLosses ∧
      (w.commitTrail.gap w.commitLead ≤ count →
        (w.read count).2.losses = w.unreportedLosses + w.readableLosses) := by
    intro count
    rw [hread]
    exact h.losses_readReady count
  have hunreported : w.unreportedLosses = min left maxReported := by
    have hparts : ∀ op ∈ parts ops, op.isPart := isPart_of_mem_parts
    have hcount := unreported_eq_departed (sound_create tsi config) rfl hparts (by rwa [run_parts])
    rwa [run_parts] at hcount
  -- The unreported losses are cut off, so only what a read finds itself makes too many of them.
  refine ⟨hunreported, hlost, fun ⟨count, hmany⟩ => ?_, fun ⟨hmany, hpos⟩ => ?_⟩
  · have hle := (hlost count).1
    omega
  · have hall := (hlost _).2 (Nat.le_refl _)
    exact ⟨_, by rw [hall]; omega⟩

theorem tells_too_many_iff_small :
    ((create smallTsi smallConfig).run farJumps).isGone = false ∧
    let w := (create smallTsi smallConfig).run farJumps
    let left := (create smallTsi smallConfig).departed 0 (parts farJumps)
    w.unreportedLosses = min left maxReported ∧
      (∀ count, (w.read count).2.losses ≤ w.unreportedLosses + w.readableLosses ∧
        (w.commitTrail.gap w.commitLead ≤ count →
          (w.read count).2.losses = w.unreportedLosses + w.readableLosses)) ∧
      ((∃ count, maxReported < (w.read count).2.losses) ↔
        maxReported < left + w.readableLosses ∧ 0 < w.readableLosses) :=
  ⟨live_farJumps, tells_too_many_iff smallTsi smallConfig live_farJumps⟩

/-- All that can be counted left, and a read finds one loss more. -/
theorem tells_one_too_many :
    let w := (create smallTsi smallConfig).run farJumps
    w.isGone = false ∧ w.unreportedLosses = maxReported ∧ w.readableLosses = 1 ∧
      (w.read 1).2.losses = maxReported + 1 := by
  decide +kernel

end ReliableMulticast.Window
