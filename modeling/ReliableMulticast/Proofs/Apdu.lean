import ReliableMulticast.Proofs.Stretch
import ReliableMulticast.Window.Delivery

/-!
# Whole APDUs and settled stretches

What the scan of an APDU means, said without the scan. `Fragments` describes a list of slots that
continues an APDU to its end, each with the offset that the payloads before it add up to, and the
scan answers `complete n` exactly if the first `n` slots are such a list
(`scanFragments_eq_complete_iff`). A `Settled` stretch is one that a reader can take as it stands:
it splits into whole APDUs and slots given up.
-/

namespace ReliableMulticast

namespace SlotState

theorem hasData_iff {s : SlotState} : s.hasData ↔ s ≠ .lost ∧ s.repairPending = false := by
  cases s <;> decide

/-- Data that was not delivered is ready for delivery. -/
theorem eq_haveData {s : SlotState} : s.hasData → s.delivered = false → s = .haveData := by
  cases s <;> decide

theorem not_delivered_of_repairPending {s : SlotState} : s.repairPending → s.delivered = false := by
  cases s <;> decide

theorem hasData_of_delivered {s : SlotState} : s.delivered → s.hasData := by
  cases s <;> decide

/-- What is neither lost nor there can still be repaired. -/
theorem repairPending_of {s : SlotState} : s ≠ .lost → ¬ s.hasData → s.repairPending := by
  cases s <;> decide

theorem hasData_eq_false {s : SlotState} : s.repairPending → s.hasData = false := by
  cases s <;> decide

theorem ne_lost {s : SlotState} : s.repairPending → s ≠ .lost := by
  cases s <;> decide

end SlotState

/-! ### Fragments -/

/-- The slot says that its packet stands `received` bytes into the APDU of `total` bytes that starts
at `first`. -/
def Slot.Continues (slot : Slot) (first : SeqNum) (total received : Nat) : Prop :=
  ∃ f, slot.fragment = some f ∧ f.apduFirst = first ∧ f.totalLength.toNat = total ∧
    f.offset.toNat = received

/-- The slots hold the APDU of `total` bytes that starts at `first`, from its byte `received` on. -/
inductive Fragments (first : SeqNum) (total : Nat) : Nat → List Slot → Prop
  | last {received : Nat} {slot : Slot} (held : slot.state.hasData)
      (continues : slot.Continues first total received)
      (full : received + slot.payloadSize = total) : Fragments first total received [slot]
  | more {received : Nat} {slot : Slot} {rest : List Slot} (held : slot.state.hasData)
      (continues : slot.Continues first total received)
      (short : received + slot.payloadSize < total)
      (later : Fragments first total (received + slot.payloadSize) rest) :
      Fragments first total received (slot :: rest)

theorem Fragments.length_pos {first : SeqNum} {total received : Nat} {apdu : List Slot}
    (h : Fragments first total received apdu) : 0 < apdu.length := by
  cases h <;> exact Nat.succ_pos _

theorem Fragments.held {first : SeqNum} {total received : Nat} {apdu : List Slot}
    (h : Fragments first total received apdu) :
    ∀ slot ∈ apdu, slot.state.hasData ∧ slot.isFragmentOf first := by
  have member : ∀ {slot : Slot} {n : Nat}, slot.Continues first total n →
      slot.isFragmentOf first := by
    rintro slot n ⟨f, hf, hfirst, -, -⟩
    simp [Slot.isFragmentOf, hf, hfirst]
  induction h with
  | last held continues _ =>
    intro slot hs
    obtain rfl := List.mem_singleton.1 hs
    exact ⟨held, member continues⟩
  | more held continues _ _ ih =>
    intro slot hs
    rcases List.mem_cons.1 hs with rfl | hs
    · exact ⟨held, member continues⟩
    · exact ih slot hs

theorem ApduScan.succ_eq_complete_iff {scan : ApduScan} {n : Nat} :
    scan.succ = .complete n ↔ ∃ m, scan = .complete m ∧ m + 1 = n := by
  cases scan <;> simp [ApduScan.succ]

theorem scanFragments_of_pending {first : SeqNum} {total received : Nat} {slot : Slot}
    (hp : slot.state.repairPending) (rest : List Slot) :
    scanFragments first total received (slot :: rest) = .incomplete := by
  have hlost : slot.state ≠ .lost := by
    intro hl
    rw [hl] at hp
    cases hp
  rw [scanFragments, if_neg hlost, if_pos hp]

/-- The scan goes over a fragment that continues the APDU and is done if that was the last one. -/
theorem scanFragments_of_continues {first : SeqNum} {total received : Nat} {slot : Slot}
    (held : slot.state.hasData) (continues : slot.Continues first total received)
    (rest : List Slot) :
    scanFragments first total received (slot :: rest) =
      if received + slot.payloadSize = total then .complete 1
      else if total < received + slot.payloadSize then .malformed
      else (scanFragments first total (received + slot.payloadSize) rest).succ := by
  obtain ⟨f, hf, here⟩ := continues
  obtain ⟨hlost, hpending⟩ := SlotState.hasData_iff.1 held
  rw [scanFragments, if_neg hlost, if_neg (Bool.eq_false_iff.1 hpending), hf]
  exact if_pos here

/-- At a slot that does not continue the APDU the scan is done. -/
theorem scanFragments_cases (first : SeqNum) (total received : Nat) (slot : Slot) (rest : List Slot) :
    (slot.state.hasData ∧ slot.Continues first total received) ∨
      slot.state.repairPending ∧ scanFragments first total received (slot :: rest) = .incomplete ∨
      slot.state = .lost ∧ scanFragments first total received (slot :: rest) = .lost ∨
      slot.state.hasData ∧ ¬ slot.Continues first total received ∧
        scanFragments first total received (slot :: rest) = .malformed := by
  by_cases hlost : slot.state = .lost
  · exact .inr (.inr (.inl ⟨hlost, if_pos hlost⟩))
  by_cases hpending : slot.state.repairPending
  · exact .inr (.inl ⟨hpending, scanFragments_of_pending hpending rest⟩)
  have held := SlotState.hasData_iff.2 ⟨hlost, Bool.eq_false_iff.2 hpending⟩
  by_cases continues : slot.Continues first total received
  · exact .inl ⟨held, continues⟩
  refine .inr (.inr (.inr ⟨held, continues, ?_⟩))
  rw [scanFragments, if_neg hlost, if_neg hpending]
  cases hf : slot.fragment with
  | none => rfl
  | some f => exact if_neg fun here => continues ⟨f, hf, here⟩

/-- The scan finds an APDU complete exactly if the slots begin with all its fragments. -/
theorem scanFragments_eq_complete_iff {first : SeqNum} {total received n : Nat}
    {slots : List Slot} :
    scanFragments first total received slots = .complete n ↔
      ∃ apdu rest, slots = apdu ++ rest ∧ apdu.length = n ∧
        Fragments first total received apdu := by
  induction slots generalizing received n with
  | nil =>
    constructor
    · intro h
      cases h
    · rintro ⟨apdu, rest, h, -, hf⟩
      have := hf.length_pos
      rw [(List.append_eq_nil_iff.1 h.symm).1] at this
      cases this
  | cons slot slots ih =>
    constructor
    · intro h
      rcases scanFragments_cases first total received slot slots with
        ⟨held, continues⟩ | ⟨-, hscan⟩ | ⟨-, hscan⟩ | ⟨-, -, hscan⟩
      · rw [scanFragments_of_continues held continues] at h
        split at h
        next full =>
          obtain rfl : 1 = n := by simpa using h
          exact ⟨[slot], slots, rfl, rfl, .last held continues full⟩
        next hne =>
          split at h
          · cases h
          next hle =>
            obtain ⟨m, hm, rfl⟩ := ApduScan.succ_eq_complete_iff.1 h
            obtain ⟨apdu, rest, rfl, rfl, later⟩ := ih.1 hm
            exact ⟨slot :: apdu, rest, rfl, rfl, .more held continues (by omega) later⟩
      all_goals
        rw [hscan] at h
        cases h
    · rintro ⟨apdu, rest, he, rfl, hf⟩
      cases hf with
      | last held continues full =>
        obtain ⟨rfl, -⟩ := List.cons.inj he
        rw [scanFragments_of_continues held continues, if_pos full]
        rfl
      | more held continues short later =>
        obtain ⟨rfl, rfl⟩ := List.cons.inj he
        rw [scanFragments_of_continues held continues, if_neg (by omega), if_neg (by omega),
          ih.2 ⟨_, rest, rfl, rfl, later⟩]
        rfl

/-! ### Whole APDUs -/

/-- The slots hold one APDU that starts at `first`: a packet of its own or all fragments. -/
inductive WholeApdu (first : SeqNum) : List Slot → Prop
  | single {slot : Slot} (held : slot.state.hasData) (alone : slot.fragment = none) :
      WholeApdu first [slot]
  | fragmented {total : Nat} {apdu : List Slot} (fragments : Fragments first total 0 apdu) :
      WholeApdu first apdu

theorem WholeApdu.length_pos {first : SeqNum} {apdu : List Slot} (h : WholeApdu first apdu) :
    0 < apdu.length := by
  cases h with
  | single => exact Nat.one_pos
  | fragmented fragments => exact fragments.length_pos

theorem WholeApdu.hasData {first : SeqNum} {apdu : List Slot} (h : WholeApdu first apdu) :
    ∀ slot ∈ apdu, slot.state.hasData := by
  cases h with
  | single held _ =>
    intro slot hs
    rwa [List.mem_singleton.1 hs]
  | fragmented fragments => exact fun slot hs => (fragments.held slot hs).1

/-! ### Settled stretches -/

/-- The slots from number `s` on split into whole APDUs and slots given up. -/
inductive Settled : SeqNum → List Slot → Prop
  | nil {s : SeqNum} : Settled s []
  | lost {s : SeqNum} {slot : Slot} {rest : List Slot} (lost : slot.state = .lost)
      (later : Settled s.next rest) : Settled s (slot :: rest)
  | apdu {s : SeqNum} {apdu rest : List Slot} (whole : WholeApdu s apdu)
      (later : Settled (s + apdu.length) rest) : Settled s (apdu ++ rest)

theorem Settled.append {s : SeqNum} {slots more : List Slot} (h : Settled s slots)
    (hmore : Settled (s + slots.length) more) : Settled s (slots ++ more) := by
  induction h with
  | nil => rwa [List.length_nil, SeqNum.add_zero] at hmore
  | lost lost _ ih =>
    rw [List.length_cons, ← SeqNum.next_add] at hmore
    exact .lost lost (ih hmore)
  | apdu whole _ ih =>
    rw [List.length_append, ← SeqNum.add_add] at hmore
    rw [List.append_assoc]
    exact .apdu whole (ih hmore)

theorem Settled.hasData_or_lost {s : SeqNum} {slots : List Slot} (h : Settled s slots) :
    ∀ slot ∈ slots, slot.state.hasData ∨ slot.state = .lost := by
  induction h with
  | nil => exact fun slot hs => absurd hs List.not_mem_nil
  | lost lost _ ih =>
    intro slot hs
    rcases List.mem_cons.1 hs with rfl | hs
    · exact .inr lost
    · exact ih slot hs
  | apdu whole _ ih =>
    intro slot hs
    rcases List.mem_append.1 hs with hs | hs
    · exact .inl (whole.hasData slot hs)
    · exact ih slot hs

end ReliableMulticast
