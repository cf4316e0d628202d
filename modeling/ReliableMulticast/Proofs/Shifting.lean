import ReliableMulticast.Proofs.Ledger
import ReliableMulticast.Proofs.Reading

/-!
# Where the readable part goes

What a move does to the two ends of the readable part is one of a few things (`Move.shifts`): the front
passes what is settled, the reader passes a slot given up or takes a message, or numbers leave and both
begin anew. Before that a window gets its place only by being defined (`Move.exists_define`).
-/

namespace ReliableMulticast.Window

variable {w w' : Window} {notes : List Note}

/-- What a move from `w` to `w'` does to the readable part. -/
inductive Shifts (w w' : Window) : List Note → Prop
  | still {notes : List Note} (trail : w'.commitTrail = w.commitTrail)
      (lead : w'.commitLead = w.commitLead) : Shifts w w' notes
  | pass (count : Nat) (inside : w.place w.commitLead + count ≤ w.slots.size)
      (settled : Settled w.commitLead (w.slots.slice w.commitLead count))
      (trail : w'.commitTrail = w.commitTrail) (lead : w'.commitLead = w.commitLead + count) :
      Shifts w w' []
  | passLost {slot : Slot} (unread : w.commitTrail ≠ w.commitLead)
      (found : w.slots.get? w.commitTrail = some slot) (lost : slot.state = .lost)
      (trail : w'.commitTrail = w.commitTrail.next) (lead : w'.commitLead = w.commitLead) :
      Shifts w w' [.passed]
  | deliver (m : Message) (held : w.HoldsMessage m) (first : m.first = w.commitTrail)
      (inside : m.packets ≤ w.commitTrail.gap w.commitLead)
      (trail : w'.commitTrail = w.commitTrail + m.packets) (lead : w'.commitLead = w.commitLead) :
      Shifts w w' [.delivered m]
  | drop (count : Nat) (pos : 0 < count) (near : count ≤ 2147483648)
      (trail : w'.commitTrail = w.commitTrail + count) (lead : w'.commitLead = w'.commitTrail) :
      Shifts w w' [.dropped count]

theorem Move.shifts (hm : w.Move notes w') (h : w.Sound) (defined : w.isDefined) :
    w.Shifts w' notes := by
  have hsound := hm.sound h
  have htrail := hm.commitTrail_eq h defined
  cases hm.framed with
  | same frame =>
    exact .still (congrArg Frame.commitTrail frame) (congrArg Frame.commitLead frame)
  | define _ undefined =>
    rw [undefined] at defined
    cases defined
  | reclaim =>
    rw [dropTrail_eq]
    exact .still rfl rfl
  | overrun front nonempty =>
    obtain ⟨slot, slots, hpop⟩ := Sound.exists_popTrail? nonempty
    rw [Sound.evictTrail_of_front front hpop] at htrail ⊢
    exact .drop 1 Nat.one_pos (by decide) htrail rfl
  | skip target _ empty ahead =>
    obtain ⟨hpos, hnear⟩ := SeqNum.before_iff.1 ahead
    rw [h.skip_eq empty ahead] at htrail ⊢
    refine .drop _ hpos hnear (htrail.trans ?_) rfl
    simp [Note.advance, Note.messages, Note.passes, Note.drops]
  | pass count inside settled => exact .pass count inside settled rfl rfl
  | passLost unread found lost => exact .passLost unread found lost rfl rfl
  | deliver count unread found held whole =>
    obtain ⟨inside, -⟩ := h.front_slice unread found held whole
    have hgap := h.gap_readable
    have hframe := frame_deliver w count
    refine .deliver _ (holdsMessage_deliver h unread found held whole) rfl ?_
      (congrArg Frame.commitTrail hframe) (congrArg Frame.commitLead hframe)
    change count ≤ _
    omega
  | regroup | append | report => exact .still rfl rfl

/-- The reader goes forward, by less than the number space. -/
theorem Shifts.exists_advance (h : w.Shifts w' notes) (hs : w.Sound) :
    ∃ count, count ≤ 2147483648 ∧ w'.commitTrail = w.commitTrail + count := by
  cases h with
  | still trail | pass _ _ _ trail => exact ⟨0, Nat.zero_le _, trail.trans (SeqNum.add_zero _).symm⟩
  | passLost _ _ _ trail => exact ⟨1, by decide, trail⟩
  | deliver m _ _ inside trail =>
    have hcl := hs.commitLead_le
    have hsize := hs.size_le
    have hgap := hs.gap_readable
    exact ⟨m.packets, by omega, trail⟩
  | drop count _ near trail => exact ⟨count, near, trail⟩

/-- A window that has no place gets it by being defined. -/
theorem Move.exists_define (hm : w.Move notes w') (undefined : w.isDefined = false)
    (defined : w'.isDefined) : ∃ trail, w' = w.define trail := by
  have still : w'.isDefined = w.isDefined → ∃ trail, w' = w.define trail :=
    fun hsame => by cases undefined.symm.trans (hsame.symm.trans defined)
  cases hm.framed with
  | define trail => exact ⟨trail, rfl⟩
  | same frame => exact still (congrArg Frame.isDefined frame)
  | reclaim =>
    refine still ?_
    rw [dropTrail_eq]
  | overrun front nonempty =>
    obtain ⟨slot, slots, hpop⟩ := Sound.exists_popTrail? nonempty
    refine still ?_
    rw [Sound.evictTrail_of_front front hpop]
  | skip _ placed => cases undefined.symm.trans placed
  | deliver count => exact still (congrArg Frame.isDefined (frame_deliver w count))
  | regroup | append | pass | passLost | report => exact still rfl

end ReliableMulticast.Window
