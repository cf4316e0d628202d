import ReliableMulticast.Proofs.Batches
import ReliableMulticast.Proofs.Upkeep

/-!
# What is pending

A reader asks whether there is something to read before it reads, and the answer is right in both
directions (`pending_exact`): a read hands out a message or tells a loss exactly if something is
pending, unless the count of the losses runs over, and if nothing is pending, nothing that could be
read is left in the window. The answer is taken from the four numbers and the losses to be told and
not from the slots. It is right because the front is up to date except after a late parity packet,
and as long as it is not there are losses to be told.
-/

namespace ReliableMulticast.Window

variable {w : Window} {m : Message} {count : Nat}

/-- After every history the front is at rest, or it stands where the reader stands and there are
losses to be told. -/
theorem atRest_or_lags (tsi : Tsi) (config : ValidConfig) {ops : List Op}
    (live : ((create tsi config).run ops).isGone = false) :
    ((create tsi config).run ops).AtRest ∨ ((create tsi config).run ops).Lags := by
  have hrun := run_parts (create tsi config) ops
  have h := atRest_or_leftBehind (sound_create tsi config) (atRest_of_empty rfl)
    isPart_of_mem_parts (by rwa [hrun])
  rw [hrun] at h
  refine h.imp_right fun behind => ?_
  have hlags := behind.1
  rwa [hrun] at hlags

theorem hasReady_eq_false_iff :
    w.hasReady = false ↔ w.commitTrail = w.commitLead ∧ w.unreportedLosses = 0 := by
  simp [hasReady, Nat.pos_iff_ne_zero]

/-- Where the readable part is not empty, a read takes a loss or an APDU from its front. -/
theorem Sound.takes_of_unread (h : w.Sound) (unread : w.commitTrail ≠ w.commitLead)
    (pos : 0 < count) (length : Nat) :
    (takeReady count (length + 1) w).2.messages ≠ [] ∨
      0 < (takeReady count (length + 1) w).2.losses := by
  obtain ⟨room, rfl⟩ : ∃ n, count = n + 1 := ⟨count - 1, by omega⟩
  obtain ⟨slot, found, lost | ⟨held, _, whole⟩⟩ := h.front_cases unread
  · rw [takeReady_of_lost unread found lost]
    exact .inr (Nat.succ_pos _)
  · rw [takeReady_of_whole unread found held whole]
    exact .inl (List.cons_ne_nil _ _)

theorem Sound.reads_of_hasReady (h : w.Sound) (ready : w.hasReady) (pos : 0 < count) :
    (w.readReady count).2.messages ≠ [] ∨ 0 < (w.readReady count).2.losses := by
  by_cases hread : w.commitTrail = w.commitLead
  · have hunreported : 0 < w.unreportedLosses := by simpa [hasReady, hread] using ready
    exact .inr (Nat.lt_of_lt_of_le hunreported (Nat.le_add_right _ _))
  · obtain ⟨length, hlength⟩ : ∃ n, w.commitTrail.gap w.commitLead = n + 1 :=
      Nat.exists_eq_succ_of_ne_zero (mt SeqNum.gap_eq_zero_iff.1 hread)
    have htakes := h.report.takes_of_unread hread pos length
    rw [readReady, hlength]
    exact htakes.imp_right fun hlost => Nat.lt_of_lt_of_le hlost (Nat.le_add_left _ _)

/-- A read of nothing resolves the front and does nothing else. -/
theorem readReady_of_idle (idle : w.hasReady = false) (count : Nat) :
    w.readReady count = (w.resolve, .nothing .ok) := by
  obtain ⟨hread, hunreported⟩ := hasReady_eq_false_iff.1 idle
  have hgap : w.commitTrail.gap w.commitLead = 0 := SeqNum.gap_eq_zero_iff.2 hread
  have hsame : { w with unreportedLosses := 0 } = w := by rw [← hunreported]
  rw [readReady, hgap, hsame, hunreported]
  rfl

/-- At rest with nothing to read, no message is ready. -/
theorem AtRest.not_ready (h : w.AtRest) (hs : w.Sound) (read : w.commitTrail = w.commitLead) :
    ¬ w.Ready m := by
  rintro ⟨n, ready⟩
  have hinside := h.ready_inside hs ready
  have hpos := ready.held.packets_pos
  rw [read, SeqNum.gap_self] at hinside
  omega

/-- A message that is whole at `commitTrail` is ready. -/
theorem Sound.ready_of_first (h : w.Sound) (held : w.HoldsMessage m)
    (first : m.first = w.commitTrail) : w.Ready m :=
  ⟨0, held, first.trans (SeqNum.add_zero _).symm, h.place_commitTrail_le, .nil⟩

/-- A read with room for a message finds something exactly if something is ready. -/
theorem Sound.reads_iff (h : w.Sound) (pos : 0 < count) :
    ((w.readReady count).2.messages ≠ [] ∨ 0 < (w.readReady count).2.losses) ↔ w.hasReady := by
  refine ⟨fun hreads => ?_, fun ready => h.reads_of_hasReady ready pos⟩
  by_contra hidle
  rw [readReady_of_idle (Bool.eq_false_iff.2 hidle)] at hreads
  exact hreads.elim (fun hmessages => hmessages rfl) (Nat.lt_irrefl 0)

/-- At rest, the slot at the front waits for its packet or begins an APDU that misses one. -/
theorem AtRest.front_waits (h : w.AtRest) {slot : Slot}
    (found : w.slots.get? w.commitLead = some slot) :
    slot.state ≠ .lost ∧
      (slot.state = .haveData → ∃ f, slot.fragment = some f ∧ f.apduFirst = w.commitLead) := by
  rcases atRest_iff.1 h slot found with pending | ⟨held, f, hf, first, -⟩
  · refine ⟨SlotState.ne_lost pending, fun held => ?_⟩
    rw [held] at pending
    cases pending
  · exact ⟨by rw [held]; decide, fun _ => ⟨f, hf, first⟩⟩

/-- The count of a read runs over only if the losses not yet told and those that can be read are too
many, and it does if they are and the read goes to the end. -/
theorem Sound.overflows_readReady (h : w.Sound) (count : Nat) :
    ((w.readReady count).2.overflows → maxReported < w.unreportedLosses + w.readableLosses) ∧
      (w.commitTrail.gap w.commitLead ≤ count →
        maxReported < w.unreportedLosses + w.readableLosses → (w.readReady count).2.overflows) := by
  obtain ⟨hle, hall⟩ := h.losses_readReady count
  rw [Delivery.overflows_iff]
  exact ⟨fun hmany => Nat.lt_of_lt_of_le hmany hle, fun roomy hmany => (hall roomy).symm ▸ hmany⟩

/-- After any history, a read with room for a message hands one out or tells a loss exactly if the
window says that something is pending, unless its count of losses runs over; something is pending
then too. That happens if the losses not yet told are too many together with those that can be read,
and the read gets far enough. If the window says that nothing is pending, a read changes nothing,
there is nothing to resolve, no message is ready, and at `commitTrail` there is neither a complete
APDU nor a slot given up nor a fragment whose APDU starts elsewhere. -/
theorem pending_exact (tsi : Tsi) (config : ValidConfig) (ops : List Op)
    (live : ((create tsi config).run ops).isGone = false) :
    let w := (create tsi config).run ops
    (∀ count, 0 < count → let delivery := (w.read count).2
      ((delivery.messages ≠ [] ∨ 0 < delivery.lost) ∨ delivery.overflows ↔ w.hasPending) ∧
      (delivery.overflows → maxReported < w.unreportedLosses + w.readableLosses) ∧
      (w.commitTrail.gap w.commitLead ≤ count →
        maxReported < w.unreportedLosses + w.readableLosses → delivery.overflows)) ∧
    (w.hasPending = false →
      (∀ count, (w.read count).1 = w) ∧ w.resolve = w ∧
      (∀ m, ¬ w.Ready m) ∧ (∀ m, w.HoldsMessage m → m.first ≠ w.commitTrail) ∧
      ∀ slot, w.slots.get? w.commitTrail = some slot → slot.state ≠ .lost ∧
        (slot.state = .haveData → ∃ f, slot.fragment = some f ∧ f.apduFirst = w.commitTrail)) := by
  intro w
  have h : w.Sound := (sound_run (sound_create tsi config) live).1
  have hread : ∀ count, w.read count = w.readReady count := fun _ => whileLive_of_live live
  have hpending : w.hasPending = w.hasReady := by
    rw [hasPending, live, Bool.not_false, Bool.true_and]
  rw [hpending]
  refine ⟨fun count pos => ?_, fun idle => ?_⟩
  · have hreads := h.reads_iff pos
    rw [Delivery.losses_pos_iff, ← or_assoc] at hreads
    rw [hread]
    exact ⟨hreads, h.overflows_readReady count⟩
  · obtain ⟨hends, hunreported⟩ := hasReady_eq_false_iff.1 idle
    have hrest : w.AtRest := (atRest_or_lags tsi config live).resolve_right fun hlags => by
      have hpos : 0 < w.unreportedLosses := hlags.2
      omega
    refine ⟨fun count => ?_, hrest.resolve_eq, fun m => hrest.not_ready h hends,
      fun m held first => hrest.not_ready h hends (h.ready_of_first held first), ?_⟩
    · rw [hread, readReady_of_idle idle, hrest.resolve_eq]
    · rw [hends]
      exact fun slot found => hrest.front_waits found

/-- A packet that is read, one that is not, and the first fragment of an APDU that misses
another. -/
def pendingHistory : List Op :=
  [smallPush 4294967295 none 1, .read 1, smallPush 0 none 2, smallPush 1 (some ⟨1, 0, 2⟩) 3]

/-- The rest is read up to the fragment. -/
def idleHistory : List Op := pendingHistory ++ [.read 1]

theorem pending_exact_small :
    ((create smallTsi smallConfig).run pendingHistory).isGone = false ∧
      (((create smallTsi smallConfig).run pendingHistory).read 1).2.messages ≠ [] ∧
      ((create smallTsi smallConfig).run farJumps).isGone = false ∧
      (((create smallTsi smallConfig).run farJumps).read 1).2.overflows ∧
      ((create smallTsi smallConfig).run idleHistory).isGone = false ∧
      ((create smallTsi smallConfig).run idleHistory).hasPending = false ∧
      ∀ m, ¬ ((create smallTsi smallConfig).run idleHistory).Ready m := by
  have live : ((create smallTsi smallConfig).run pendingHistory).isGone = false := by decide +kernel
  have reads := ((pending_exact smallTsi smallConfig pendingHistory live).1 1 Nat.one_pos).1.2
    (by decide +kernel)
  have hands := (reads.resolve_right (by decide +kernel)).resolve_right (by decide +kernel)
  have overflows := ((pending_exact smallTsi smallConfig farJumps live_farJumps).1 1 Nat.one_pos).2.2
    (by decide +kernel) (by decide +kernel)
  have later : ((create smallTsi smallConfig).run idleHistory).isGone = false := by decide +kernel
  have idle : ((create smallTsi smallConfig).run idleHistory).hasPending = false := by
    decide +kernel
  obtain ⟨-, -, unready, -⟩ := (pending_exact smallTsi smallConfig idleHistory later).2 idle
  exact ⟨live, hands, live_farJumps, overflows, later, idle, unready⟩

/-- A loss can be read after the far jumps and all before it wait to be told, and a read neither hands
out a message nor tells a loss. -/
theorem pending_yet_nothing_told :
    let w := (create smallTsi smallConfig).run farJumps
    w.isGone = false ∧ w.hasPending ∧ (w.read 1).2.isEmpty ∧ (w.read 1).2.overflows := by
  decide +kernel

end ReliableMulticast.Window
