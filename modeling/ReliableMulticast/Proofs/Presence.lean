import ReliableMulticast.Proofs.Lossless
import ReliableMulticast.Proofs.Retention

/-!
# Numbers that stay in the window

A window only moves on, so a number that has left it is not in it again until the numbers have come
round. No operation goes that far: a number that is in the window before and after it was there all
the time (`Moves.contains_between`), and if its slot was not given up in the end it never was
(`Moves.isAlive_of`). What such slots keep can then be proved move by move (`Moves.induct_alive`).
-/

namespace ReliableMulticast.Window

variable {w w' v : Window} {notes more : List Note} {x : SeqNum}

/-! ### Moving on -/

/-- The window has moved on by `count` numbers; all other numbers that it had are in it. -/
structure MovedOn (w w' : Window) (count : Nat) : Prop where
  trail : w'.trail = w.trail + count
  size : w.slots.size ≤ count + w'.slots.size

theorem MovedOn.of_frame_eq (hf : w'.frame = w.frame) : w.MovedOn w' 0 where
  trail := (congrArg Frame.trail hf).trans (SeqNum.add_zero _).symm
  size := by rw [Nat.zero_add, show w'.slots.size = w.slots.size from congrArg Frame.size hf]

theorem MovedOn.trans {m n : Nat} (h : w.MovedOn v m) (h' : v.MovedOn w' n) :
    w.MovedOn w' (m + n) where
  trail := by rw [h'.trail, h.trail, SeqNum.add_add]
  size := by
    have := h.size
    have := h'.size
    omega

theorem movedOn_append {slot : Slot} (here : slot.sequence = w.next)
    (room : w.slots.size < w.capacity) : w.MovedOn (w.append slot) 0 where
  trail := (SlotRing.trail_append ..).trans (SeqNum.add_zero _).symm
  size := by
    have := (places_append here room).2.1
    omega

theorem movedOn_of_popTrail? {slot : Slot} {slots : SlotRing}
    (hpop : w.slots.popTrail? = some (slot, slots)) (hslots : w'.slots = slots) : w.MovedOn w' 1 := by
  obtain ⟨-, -, htrail, hsize, -⟩ := SlotRing.popTrail?_eq_some hpop
  subst hslots
  exact ⟨htrail, Nat.le_of_eq (hsize.symm.trans (Nat.add_comm ..))⟩

/-- A window moves on as far as its reader does, or less as far as the reader gets away from its
trail. -/
theorem Move.exists_movedOn (hm : w.Move notes w') (h : w.Sound) (defined : w.isDefined) :
    ∃ count, w.MovedOn w' count ∧
      count + w'.place w'.commitTrail ≤ w.place w.commitTrail + Note.advance notes := by
  have hreader := hm.place_commitTrail_le h
  have still : w.MovedOn w' 0 → ∃ count, w.MovedOn w' count ∧
      count + w'.place w'.commitTrail ≤ w.place w.commitTrail + Note.advance notes :=
    fun hmoved => ⟨0, hmoved, by omega⟩
  cases hm.framed with
  | same frame => exact still (.of_frame_eq frame)
  | append slot _ _ next room => exact still (movedOn_append next room)
  | define _ undefined =>
    rw [undefined] at defined
    cases defined
  | reclaim behind =>
    have hct := h.place_commitTrail_le
    obtain ⟨slot, slots, hpop⟩ := Sound.exists_popTrail? (w := w) (by omega)
    have hdrop : w.dropTrail = { w with slots } := by rw [dropTrail, hpop]
    rw [hdrop]
    have hmoved : w.MovedOn { w with slots } 1 := movedOn_of_popTrail? hpop rfl
    refine ⟨1, hmoved, ?_⟩
    have hnext := Sound.place_of_trail_next hmoved.trail behind
    change 1 + { w with slots }.place w.commitTrail ≤ _
    omega
  | overrun front nonempty =>
    obtain ⟨slot, slots, hpop⟩ := Sound.exists_popTrail? nonempty
    rw [Sound.evictTrail_of_front front hpop]
    refine ⟨1, movedOn_of_popTrail? hpop rfl, ?_⟩
    change 1 + slots.trail.gap slots.trail ≤ _
    rw [SeqNum.gap_self]
    exact Nat.le_add_left ..
  | skip target _ empty ahead =>
    rw [h.skip_eq empty ahead]
    refine ⟨w.trail.gap target, ⟨(SeqNum.add_gap _ _).symm, by omega⟩, ?_⟩
    have hadvance : Note.advance [.dropped (w.trail.gap target)] = w.trail.gap target := by
      simp [Note.advance, Note.messages, Note.passes, Note.drops]
    rw [hadvance]
    change w.trail.gap target + target.gap target ≤ _
    rw [SeqNum.gap_self]
    exact Nat.le_add_left ..
  | passLost => exact still ⟨(SeqNum.add_zero _).symm, by rw [Nat.zero_add]⟩
  | deliver count =>
    have hframe := frame_deliver w count
    refine still ⟨(congrArg Frame.trail hframe).trans (SeqNum.add_zero _).symm, ?_⟩
    rw [Nat.zero_add, show (w.deliver count).1.slots.size = w.slots.size from
      congrArg Frame.size hframe]
  | regroup | pass | report =>
    exact still ⟨(SeqNum.add_zero _).symm, Nat.le_of_eq (Nat.zero_add _).symm⟩

theorem Moves.exists_movedOn (hm : w.Moves notes w') (h : w.Sound) (defined : w.isDefined) :
    ∃ count, w.MovedOn w' count ∧
      count + w'.place w'.commitTrail ≤ w.place w.commitTrail + Note.advance notes := by
  induction hm with
  | done w => exact ⟨0, .of_frame_eq rfl, Nat.le_of_eq (Nat.zero_add _)⟩
  | next first _ ih =>
    obtain ⟨m, hfirst, hm⟩ := first.exists_movedOn h defined
    obtain ⟨n, hlater, hn⟩ := ih (first.sound h) (first.keeps.isDefined defined)
    refine ⟨m + n, hfirst.trans hlater, ?_⟩
    rw [Note.advance_append]
    omega

/-! ### Numbers that are there before and after -/

/-- The place of a number from which the window has not moved on. -/
theorem MovedOn.contains (hmoved : w.MovedOn w' count) (hx : w.slots.Contains x)
    (ahead : count ≤ w.place x) : w'.slots.Contains x := by
  have hlt := contains_iff_place.1 hx
  have hsize := hmoved.size
  have hbound := w.slots.size_le_maxRing
  have hplace : w'.place x = w.place x - count := by
    rw [place, hmoved.trail]
    have := SeqNum.gap_add_add w.trail ahead (by omega)
    rwa [trail_add_place] at this
  rw [contains_iff_place, hplace]
  omega

/-- A number that the window left behind is not in it for a long time. -/
theorem MovedOn.not_contains (hmoved : w.MovedOn w' count) (behind : w.place x < count)
    (near : count + w'.slots.size ≤ 4294967296) : ¬ w'.slots.Contains x := by
  have hback : w'.place x = 4294967296 - (count - w.place x) := by
    have ht := w.trail.toNat_lt
    have hx := x.toNat_lt
    rw [place, hmoved.trail]
    simp only [place, SeqNum.gap_eq, SeqNum.toNat_add] at behind ⊢
    omega
  rw [contains_iff_place, hback]
  omega

/-- A number that is in the window before and after moves that do not go far was in it in between. -/
theorem Moves.contains_between (first : w.Moves notes v) (later : v.Moves more w') (h : w.Sound)
    (defined : w.isDefined) (near : Note.advance (notes ++ more) ≤ 2147483648)
    (hx : w.slots.Contains x) (hx' : w'.slots.Contains x) : v.slots.Contains x := by
  have hv := first.sound h
  obtain ⟨m, hfirst, hm⟩ := first.exists_movedOn h defined
  obtain ⟨n, hlater, hn⟩ := later.exists_movedOn hv (first.keeps.isDefined defined)
  have hsize := h.size_le
  have hsize' := (later.sound hv).size_le
  have hct := h.place_commitTrail_le
  rw [Note.advance_append] at near
  refine hfirst.contains hx (Nat.le_of_not_lt fun behind => ?_)
  exact (hfirst.trans hlater).not_contains (by omega) (by omega) hx'

/-- The number has a slot that was not given up. -/
def IsAlive (w : Window) (x : SeqNum) : Prop :=
  ∃ slot, w.slots.get? x = some slot ∧ slot.state ≠ .lost

theorem IsAlive.contains (h : w.IsAlive x) : w.slots.Contains x := by
  obtain ⟨slot, hs, -⟩ := h
  exact SlotRing.isSome_get?_iff.1 (by rw [hs]; rfl)

/-- The slot of a number that was in the window before the move comes from the slot it had. -/
theorem Move.exists_turns (hm : w.Move notes w') (h : w.Sound) (hx : w.slots.Contains x) {new : Slot}
    (hs : w'.slots.get? x = some new) :
    ∃ old, w.slots.get? x = some old ∧ w.Turns w' x old notes new := by
  refine (hm.slot_cases h hs).resolve_left fun harises => ?_
  have hnext : x = w.next := by
    cases harises with
    | placeholder _ _ next => exact next
    | packet _ _ _ next => exact next
  rw [hnext, contains_iff_place, place_next] at hx
  exact Nat.lt_irrefl _ hx

/-- A slot that was not given up in the end was never given up. -/
theorem Moves.isAlive_of (hm : w.Moves notes w') (h : w.Sound) (defined : w.isDefined)
    (near : Note.advance notes ≤ 2147483648) (hx : w.slots.Contains x) (alive : w'.IsAlive x) :
    w.IsAlive x := by
  induction hm with
  | done => exact alive
  | next first later ih =>
    have hbetween := first.moves.contains_between later h defined near hx alive.contains
    rw [Note.advance_append] at near
    obtain ⟨new, hnew, hlost⟩ :=
      ih (first.sound h) (first.keeps.isDefined defined) (by omega) hbetween alive
    obtain ⟨old, hold, hturns⟩ := first.exists_turns h hx hnew
    exact ⟨old, hold, hturns.not_lost hlost⟩

/-- What every move keeps in whose course all slots of `numbers` stay and none is given up is kept by
moves after which they are there and not given up. -/
theorem Moves.induct_alive {P : Window → Prop} {numbers : List SeqNum} (hm : w.Moves notes w')
    (h : w.Sound) (defined : w.isDefined) (near : Note.advance notes ≤ 2147483648)
    (there : ∀ x ∈ numbers, w.slots.Contains x) (alive : ∀ x ∈ numbers, w'.IsAlive x)
    (step : ∀ {v v' : Window} {notes : List Note}, v.Sound → v.Move notes v' →
      (∀ x ∈ numbers, v.IsAlive x) → (∀ x ∈ numbers, v'.IsAlive x) → P v → P v')
    (base : P w) : P w' := by
  induction hm with
  | done => exact base
  | next first later ih =>
    have hv := first.sound h
    have defined' := first.keeps.isDefined defined
    have between := fun x hx => first.moves.contains_between later h defined near (there x hx)
      (alive x hx).contains
    have before := fun x hx => (first.moves.trans later).isAlive_of h defined near (there x hx)
      (alive x hx)
    rw [Note.advance_append] at near
    have after := fun x hx => later.isAlive_of hv defined' (by omega) (between x hx) (alive x hx)
    exact ih hv defined' (by omega) between alive (step h first before after base)

/-! ### Histories -/

/-- A window that was shut down has no slots. -/
theorem get?_of_gone (tsi : Tsi) (config : ValidConfig) {ops : List Op}
    (gone : ((create tsi config).run ops).isGone) (x : SeqNum) :
    ((create tsi config).run ops).slots.get? x = none := by
  rw [← run_parts] at gone ⊢
  have hparts : ∀ op ∈ parts ops, op.isPart := isPart_of_mem_parts
  generalize parts ops = ops at gone hparts ⊢
  induction ops using List.reverseRecOn with
  | nil => exact get?_create tsi config x
  | append_singleton ops op ih =>
    have part := hparts op (List.mem_append_right ops (List.mem_singleton_self op))
    rw [run_concat] at gone ⊢
    cases hlive : ((create tsi config).run ops).isGone with
    | true =>
      rw [step_of_gone hlive part]
      exact ih hlive fun y hy => hparts y (List.mem_append_left _ hy)
    | false =>
      by_cases hop : op = .shutdown
      · subst hop
        simp only [step, shutdown, hlive]
        exact SlotRing.get?_reset ..
      · obtain ⟨notes, hmoves, -⟩ :=
          step_spec_of_ne (sound_run (sound_create tsi config) hlive).1 hlive part hop
        rw [hmoves.keeps.isGone, hlive] at gone
        cases gone

/-- What does not read moves on by half of the number space at most. -/
theorem Tells.advance_le {op : Op} {answer : Answer} (ht : w.Tells op answer notes)
    (unread : ∀ count, op ≠ .read count) : Note.advance notes ≤ 2147483648 := by
  obtain ⟨hmessages, htold⟩ := ht.apart.resolve_left fun ⟨count, hread, _⟩ => unread count hread
  have hpasses := Note.passes_le_told notes
  have hdrops := ht.drops
  have hjump : w.maxJump ≤ 2147483648 := by
    unfold maxJump
    split <;> decide
  rw [Note.advance, hmessages]
  simp only [List.map_nil, List.sum_nil]
  omega

end ReliableMulticast.Window
