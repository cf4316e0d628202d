import ReliableMulticast.Proofs.Portions

/-!
# Reading in batches

How much a reader asks for at a time does not matter: two reads hand out together what one read with
room for both hands out, and leave the same window (`read_add`). Only the losses that they tell can
differ, where the count of the one read runs over. A read goes on where the one before it stopped,
whether that was at an APDU, at a loss or at the end of the readable part (`Sound.takeReady_add`), as
what it does to the front depends on nothing but the window there (`Sound.front_cases`). Its losses
are those that waited to be told and those that it steps over (`Sound.losses_readReady`).
-/

namespace ReliableMulticast

/-- What two reads come to together. -/
def Delivery.append (d more : Delivery) : Delivery :=
  { more with messages := d.messages ++ more.messages, losses := d.losses + more.losses }

instance : Append Delivery := ⟨Delivery.append⟩

namespace Delivery

@[simp] theorem messages_append (d more : Delivery) :
    (d ++ more).messages = d.messages ++ more.messages := rfl

@[simp] theorem losses_append (d more : Delivery) : (d ++ more).losses = d.losses + more.losses := rfl

@[simp] theorem nothing_append (o : Outcome) (d : Delivery) : nothing o ++ d = d := by
  change Delivery.mk _ ([] ++ d.messages) (0 + d.losses) = d
  rw [List.nil_append, Nat.zero_add]

theorem addLoss_append (d more : Delivery) : d.addLoss ++ more = (d ++ more).addLoss :=
  congrArg (Delivery.mk _ _) (Nat.add_right_comm d.losses 1 more.losses)

theorem addMessage_append (d more : Delivery) (m : Message) :
    d.addMessage m ++ more = (d ++ more).addMessage m := rfl

theorem bytes_append (d more : Delivery) : (d ++ more).bytes = d.bytes + more.bytes := by
  obtain ⟨outcome, messages, losses⟩ := d
  change (messages ++ more.messages).foldr _ 0 = messages.foldr _ 0 + more.messages.foldr _ 0
  induction messages with
  | nil => exact (Nat.zero_add _).symm
  | cons m messages ih => rw [List.cons_append, List.foldr_cons, List.foldr_cons, ih, Nat.add_assoc]

/-- The counts of two reads add up to that of both together, unless it runs over where that of the
first does not. The second one is too small to run over, and both are too small to run over twice. -/
theorem toNat_lost_append_iff {d more : Delivery} (small : more.losses ≤ 1073741824)
    (bound : d.losses + more.losses ≤ maxReported + 1073741824) :
    (d ++ more).lost.toNat = d.lost.toNat + more.lost.toNat ↔
      (d ++ more).overflows = d.overflows := by
  rw [toNat_lost, toNat_lost, toNat_lost, Bool.eq_iff_iff, overflows_iff, overflows_iff,
    losses_append, maxReported]
  unfold maxReported at bound
  omega

end Delivery

namespace Window

variable {w : Window} {slot : Slot} {room length more count : Nat}

/-! ### One read after another -/

/-- A read goes through the readable part once, so it does not matter how long it may take. -/
theorem Sound.takeReady_eq (h : w.Sound) (room : Nat)
    (enough : w.commitTrail.gap w.commitLead ≤ length)
    (enough' : w.commitTrail.gap w.commitLead ≤ more) :
    takeReady room length w = takeReady room more w := by
  induction length generalizing room more w with
  | zero =>
    have read := SeqNum.gap_eq_zero_iff.1 (Nat.le_zero.1 enough)
    rw [takeReady_of_read read, takeReady_of_read read]
  | succ length ih =>
    by_cases read : w.commitTrail = w.commitLead
    · rw [takeReady_of_read read, takeReady_of_read read]
    cases room with
    | zero => rw [takeReady_of_full, takeReady_of_full]
    | succ room =>
      obtain ⟨more, rfl⟩ : ∃ n, more = n + 1 :=
        ⟨more - 1, by have := mt SeqNum.gap_eq_zero_iff.1 read; omega⟩
      obtain ⟨slot, found, lost | ⟨held, count, whole⟩⟩ := h.front_cases read
      · have hgap := gap_passLost read
        have hrest : takeReady (room + 1) length { w with commitTrail := w.commitTrail.next } =
            takeReady (room + 1) more { w with commitTrail := w.commitTrail.next } :=
          ih (h.passLost read found lost) (room + 1) (by simp only; omega) (by simp only; omega)
        rw [takeReady_of_lost read found lost, takeReady_of_lost read found lost, hrest]
      · have hgap := h.gap_deliver read found held whole
        have hrest : takeReady room length (w.deliver count).1 =
            takeReady room more (w.deliver count).1 :=
          ih (h.deliver read found held whole) room (by omega) (by omega)
        rw [takeReady_of_whole read found held whole, takeReady_of_whole read found held whole, hrest]

/-- A second read takes what the first one would have taken with more room. -/
theorem Sound.takeReady_add (h : w.Sound) (a b : Nat)
    (enough : w.commitTrail.gap w.commitLead ≤ length)
    (enough' : (takeReady a length w).1.commitTrail.gap (takeReady a length w).1.commitLead ≤ more) :
    takeReady (a + b) length w =
      ((takeReady b more (takeReady a length w).1).1,
        (takeReady a length w).2 ++ (takeReady b more (takeReady a length w).1).2) := by
  induction length generalizing a w with
  | zero =>
    have read := SeqNum.gap_eq_zero_iff.1 (Nat.le_zero.1 enough)
    simp only [takeReady_of_read read, Delivery.nothing_append]
  | succ length ih =>
    by_cases read : w.commitTrail = w.commitLead
    · simp only [takeReady_of_read read, Delivery.nothing_append]
    cases a with
    | zero =>
      simp only [takeReady_of_full] at enough' ⊢
      rw [Nat.zero_add, Delivery.nothing_append]
      exact h.takeReady_eq b enough enough'
    | succ a =>
      rw [Nat.add_right_comm]
      obtain ⟨slot, found, lost | ⟨held, count, whole⟩⟩ := h.front_cases read
      · have hgap := gap_passLost read
        rw [takeReady_of_lost read found lost] at enough' ⊢
        rw [takeReady_of_lost read found lost, Nat.add_right_comm,
          ih (h.passLost read found lost) (a + 1) (by simp only; omega) enough',
          Delivery.addLoss_append]
      · have hgap := h.gap_deliver read found held whole
        rw [takeReady_of_whole read found held whole] at enough' ⊢
        rw [takeReady_of_whole read found held whole,
          ih (h.deliver read found held whole) a (by omega) enough', Delivery.addMessage_append]

/-! ### The losses of a read -/

/-- The losses that can be read. -/
def readableLosses (w : Window) : Nat := w.readable.countP Slot.isLost

theorem Sound.readableLosses_le (h : w.Sound) : w.readableLosses ≤ 1073741824 := by
  have hcount : w.readableLosses ≤ w.readable.length := List.countP_le_length
  have hgap := h.gap_readable
  have hsize := h.size_le
  have hlead := h.commitLead_le
  rw [h.length_readable] at hcount
  omega

/-- The losses that a read steps over are told, and the others can be read afterwards. -/
theorem Sound.losses_takeReady (h : w.Sound) (room length : Nat) :
    (takeReady room length w).2.losses + (takeReady room length w).1.readableLosses =
      w.readableLosses := by
  induction length generalizing room w with
  | zero => exact Nat.zero_add _
  | succ length ih =>
    by_cases read : w.commitTrail = w.commitLead
    · rw [takeReady_of_read read]
      exact Nat.zero_add _
    cases room with
    | zero =>
      rw [takeReady_of_full]
      exact Nat.zero_add _
    | succ room =>
      obtain ⟨slot, found, lost | ⟨held, count, whole⟩⟩ := h.front_cases read
      · have hrest := ih (h.passLost read found lost) (room + 1)
        have hcount : w.readableLosses =
            { w with commitTrail := w.commitTrail.next }.readableLosses + 1 := by
          rw [readableLosses, readable_passLost read found]
          exact List.countP_cons_of_pos (by simpa [Slot.isLost] using lost)
        rw [takeReady_of_lost read found lost, hcount, ← hrest]
        exact Nat.add_right_comm ..
      · obtain ⟨apdu, -, hapdu, hread⟩ := h.readable_deliver read found held whole
        have none : apdu.countP Slot.isLost = 0 := by
          refine List.countP_eq_zero.2 fun x hx hlost => ?_
          exact (SlotState.hasData_iff.1 (hapdu.hasData x hx)).1 (by simpa [Slot.isLost] using hlost)
        rw [takeReady_of_whole read found held whole]
        refine (ih (h.deliver read found held whole) room).trans ?_
        rw [readableLosses, readableLosses, hread, List.countP_append, none, Nat.zero_add]

/-- A read with room left over leaves nothing, and one with room for as many messages as there are
numbers does not either. -/
theorem Sound.takeReady_all (h : w.Sound) (long : w.commitTrail.gap w.commitLead ≤ length)
    (roomy : (takeReady room length w).2.messages.length < room ∨
      w.commitTrail.gap w.commitLead ≤ room) :
    (takeReady room length w).1.commitTrail = (takeReady room length w).1.commitLead := by
  induction length generalizing room w with
  | zero => exact SeqNum.gap_eq_zero_iff.1 (Nat.le_zero.1 long)
  | succ length ih =>
    by_cases read : w.commitTrail = w.commitLead
    · rwa [takeReady_of_read read]
    have hpos := mt SeqNum.gap_eq_zero_iff.1 read
    cases room with
    | zero => exact absurd roomy (by omega)
    | succ room =>
      obtain ⟨slot, found, lost | ⟨held, count, whole⟩⟩ := h.front_cases read
      · have hgap := gap_passLost read
        rw [takeReady_of_lost read found lost] at roomy ⊢
        exact ih (h.passLost read found lost) (by simp only; omega)
          (roomy.imp_right fun hroom => by simp only; omega)
      · have hgap := h.gap_deliver read found held whole
        rw [takeReady_of_whole read found held whole] at roomy ⊢
        exact ih (h.deliver read found held whole) (by omega)
          (roomy.imp Nat.lt_of_succ_lt_succ fun hroom => by omega)

theorem readableLosses_of_read (read : w.commitTrail = w.commitLead) : w.readableLosses = 0 := by
  rw [readableLosses, readable, read, SeqNum.gap_self]
  rfl

/-- A read comes to the losses not yet told and those that it steps over. -/
theorem Sound.losses_readReady (h : w.Sound) (count : Nat) :
    (w.readReady count).2.losses ≤ w.unreportedLosses + w.readableLosses ∧
      (w.commitTrail.gap w.commitLead ≤ count →
        (w.readReady count).2.losses = w.unreportedLosses + w.readableLosses) := by
  have htake := h.report.losses_takeReady count (w.commitTrail.gap w.commitLead)
  change _ = w.readableLosses at htake
  change w.unreportedLosses + _ ≤ _ ∧ (_ → w.unreportedLosses + _ = _)
  refine ⟨by omega, fun roomy => ?_⟩
  have hread := h.report.takeReady_all (Nat.le_refl _) (.inr roomy)
  rw [readableLosses_of_read hread] at htake
  omega

/-! ### Batches -/

/-- A read at rest is what it takes, with the losses not yet told before it. -/
theorem AtRest.readReady_of_take (h : w.AtRest) (hs : w.Sound) {taken : Window} {d : Delivery}
    (take : Window.takeReady count (w.commitTrail.gap w.commitLead)
      { w with unreportedLosses := 0 } = (taken, d)) :
    w.readReady count = (taken, { d with losses := w.unreportedLosses + d.losses }) := by
  have left := h.readReady_eq hs count
  rw [take] at left
  refine Prod.ext left ?_
  simp only [Window.readReady, take]

/-- At rest, two reads are one read with room for both. -/
theorem AtRest.readReady_add (h : w.AtRest) (hs : w.Sound) (a b : Nat) :
    w.readReady (a + b) = (((w.readReady a).1.readReady b).1,
      (w.readReady a).2 ++ ((w.readReady a).1.readReady b).2) := by
  have add := hs.report.takeReady_add a b (Nat.le_refl _) (Nat.le_refl _)
  simp only at add
  obtain ⟨_, hmoves, -⟩ := readReady_spec hs a
  have hsound := hmoves.sound hs
  have rests := h.readReady hs a
  have told := unreportedLosses_readReady w a
  rcases take : Window.takeReady a (w.commitTrail.gap w.commitLead)
    { w with unreportedLosses := 0 } with ⟨taken, first⟩
  rw [take] at add
  have hfirst := h.readReady_of_take hs take
  rw [hfirst] at hsound rests told ⊢
  simp only at add hsound rests told ⊢
  rcases more : Window.takeReady b (taken.commitTrail.gap taken.commitLead) taken with ⟨after, second⟩
  rw [more] at add
  -- The first read left nothing untold, so the second one adds just what it takes.
  have same : { taken with unreportedLosses := 0 } = taken := by rw [← told]
  have hsecond := rests.readReady_of_take hsound (same.symm ▸ more)
  rw [hsecond, told, Nat.zero_add, h.readReady_of_take hs add]
  exact congrArg (Prod.mk _) (congrArg (Delivery.mk _ _) (Nat.add_assoc ..).symm)

/-- With the front of a window up to date, reading up to `a` messages and then up to `b` hands out the
messages that reading up to `a + b` hands out, and leaves the same window. It comes to the same number
of losses. They are told by the same total as well, unless the count of the one read runs over where
that of the first of the two does not; that of the second never does. -/
theorem read_add (tsi : Tsi) (config : ValidConfig) {ops : List Op}
    (live : ((create tsi config).run ops).isGone = false)
    (settled : ((create tsi config).run ops).resolve = (create tsi config).run ops) (a b : Nat) :
    let w := (create tsi config).run ops
    let (between, first) := w.read a
    let (after, second) := between.read b
    let (whole, delivery) := w.read (a + b)
    delivery.messages = first.messages ++ second.messages ∧
      delivery.bytes = first.bytes + second.bytes ∧
      delivery.losses = first.losses + second.losses ∧
      whole = after ∧
      second.overflows = false ∧
      (delivery.lost.toNat = first.lost.toNat + second.lost.toNat ↔
        delivery.overflows = first.overflows) := by
  intro w
  have h : w.Sound := (sound_run (sound_create tsi config) live).1
  have rests : w.AtRest := (congrArg AtRest settled).mp (atRest_resolve _)
  obtain ⟨_, hmoves, -⟩ := readReady_spec h a
  have first : w.read a = w.readReady a := whileLive_of_live live
  have whole : w.read (a + b) = w.readReady (a + b) := whileLive_of_live live
  have second : (w.readReady a).1.read b = (w.readReady a).1.readReady b :=
    whileLive_of_live (hmoves.keeps.isGone.trans live)
  have add := rests.readReady_add h a b
  -- The first read tells what was not told before it, so the second one has little to tell.
  have small : ((w.readReady a).1.readReady b).2.losses ≤ 1073741824 := by
    have hlosses := ((hmoves.sound h).losses_readReady b).1
    have hreadable := (hmoves.sound h).readableLosses_le
    rw [unreportedLosses_readReady] at hlosses
    omega
  have bound : (w.readReady a).2.losses + ((w.readReady a).1.readReady b).2.losses ≤
      maxReported + 1073741824 := by
    have hlosses := (h.losses_readReady (a + b)).1
    have hreadable := h.readableLosses_le
    have hunreported : w.unreportedLosses ≤ maxReported := unreportedLosses_le tsi config live
    rw [add, Delivery.losses_append] at hlosses
    omega
  simp only [first, second, whole, add, true_and]
  refine ⟨Delivery.messages_append .., Delivery.bytes_append .., Delivery.losses_append .., ?_,
    Delivery.toNat_lost_append_iff small bound⟩
  exact decide_eq_false (Nat.not_lt.2 (small.trans (by decide)))

/-- A message, two losses and another message, with room for both messages in one read. -/
def lossesBetween : List Op :=
  [smallPush 0 none 1, smallPush 3 none 2, .markLost 1, .markLost 2]

theorem read_add_small :
    let w := (create smallTsi smallConfig).run lossesBetween
    let (between, first) := w.read 1
    let (after, second) := between.read 1
    let (whole, delivery) := w.read 2
    (w.isGone = false ∧ w.resolve = w ∧
      first.messages.length = 1 ∧ first.lost = 0 ∧ second.messages.length = 1 ∧ second.lost = 2) ∧
      delivery.messages = first.messages ++ second.messages ∧
        delivery.bytes = first.bytes + second.bytes ∧
        delivery.losses = first.losses + second.losses ∧
        whole = after ∧
        second.overflows = false ∧
        (delivery.lost.toNat = first.lost.toNat + second.lost.toNat ↔
          delivery.overflows = first.overflows) := by
  have live : ((create smallTsi smallConfig).run lossesBetween).isGone = false := by decide +kernel
  have rests : ((create smallTsi smallConfig).run lossesBetween).AtRest := by
    change resolveStep? _ = none
    rfl
  exact ⟨⟨live, rests.resolve_eq, by decide +kernel, by decide +kernel, by decide +kernel,
    by decide +kernel⟩, read_add smallTsi smallConfig live rests.resolve_eq 1 1⟩

/-- In two reads all losses are told, and in one read none of them. -/
theorem one_read_tells_nothing :
    let w := (create smallTsi smallConfig).run farJumps
    let (between, first) := w.read 0
    let second := (between.read 1).2
    let delivery := (w.read 1).2
    w.isGone = false ∧ w.resolve = w ∧ first.lost.toNat = maxReported ∧ second.lost = 1 ∧
      delivery.lost = 0 ∧ delivery.overflows := by
  have rests : ((create smallTsi smallConfig).run farJumps).AtRest := by
    change resolveStep? _ = none
    rfl
  refine ⟨live_farJumps, rests.resolve_eq, ?_⟩
  decide +kernel

end Window

end ReliableMulticast
