import ReliableMulticast.Proofs.Firing

/-!
# Missing packets inside an APDU

A packet that is missing is not known to be a fragment (`Bare`), so giving it up reaches no other slot.
A slot that still waits is therefore lost in a sweep only where the front, in resolving, gives up an
APDU around it (`Encloses`): the first packet of that APDU is held, and the number lies before another
of its fragments.
-/

namespace ReliableMulticast.Window

variable {w w' v : Window} {notes : List Note} {now : Timestamp} {timer : Timer} {idle : List SeqNum}
  {first s x : SeqNum} {slot old new : Slot} {p : Slot → Bool}

theorem slotIs_iff : w.slotIs x p ↔ ∃ slot, w.slots.get? x = some slot ∧ p slot :=
  Option.any_eq_true _ _

/-! ### Packets that are missing -/

/-- A packet that is missing is not known to be a fragment. -/
def Bare (w : Window) : Prop :=
  ∀ x slot, w.slots.get? x = some slot → slot.state.repairPending → slot.fragment = none

theorem Turns.bare (h : w.Turns w' x old notes new) (bare : old.state.repairPending → old.fragment = none)
    (pending : new.state.repairPending) : new.fragment = none := by
  have before := bare (h.pending pending)
  cases h with
  | fill => cases pending
  | same | keep | commit => exact before
  | wait _ waits => exact waits.fragment.trans before
  | lose | spoil | orphan => exact old.fragment_lose.trans before
  | retain => exact old.fragment_retain.trans before
  | free => exact old.fragment_dropPayload.trans before

theorem Move.bare (hm : w.Move notes w') (hs : w.Sound) (h : w.Bare) : w'.Bare := by
  intro x new found pending
  rcases hm.slot_cases hs found with harises | ⟨old, hold, hturns⟩
  · cases harises with
    | placeholder => rfl
    | packet => cases pending
  · exact hturns.bare (h x old hold) pending

theorem Moves.bare (hm : w.Moves notes w') (hs : w.Sound) (h : w.Bare) : w'.Bare := by
  induction hm with
  | done => exact h
  | next first _ ih => exact ih (first.sound hs) (first.bare hs h)

theorem bare_run (tsi : Tsi) (config : ValidConfig) {ops : List Op}
    (live : ((create tsi config).run ops).isGone = false) : ((create tsi config).run ops).Bare := by
  rw [← run_parts] at live ⊢
  refine (history_induction (motive := fun ops => ((create tsi config).run ops).Bare)
    (sound_create tsi config) ?_ (fun _ _ _ hs hmoves _ h => hmoves.bare hs h) isPart_of_mem_parts
    live).2
  intro x slot found
  cases (get?_create tsi config x).symm.trans found

theorem Bare.fragment_of_isMissing (h : w.Bare) (missing : w.IsMissing s) :
    (w.slots.get? s).bind Slot.fragment = none := by
  obtain ⟨slot, found, pending⟩ := missing
  rw [found]
  exact h s slot found pending

/-- Giving up packets that are missing changes their own slots and no other. -/
theorem get?_loseAll_of_none {numbers : List SeqNum}
    (bare : ∀ s ∈ numbers, (w.slots.get? s).bind Slot.fragment = none) (x : SeqNum) :
    (numbers.foldl loseApdu w).slots.get? x =
      if x ∈ numbers then (w.slots.get? x).map Slot.lose else w.slots.get? x := by
  have hfold : numbers.foldl loseApdu w = numbers.foldl giveUpSlot w := by
    induction numbers generalizing w with
    | nil => rfl
    | cons s numbers ih =>
      rw [List.foldl_cons, List.foldl_cons, loseApdu_of_none (bare s (List.mem_cons_self ..))]
      refine ih fun t ht => ?_
      rw [get?_giveUpSlot]
      split
      · have hnone := bare t (List.mem_cons_of_mem s ht)
        revert hnone
        cases w.slots.get? t <;> simp
      · exact bare t (List.mem_cons_of_mem s ht)
  rw [hfold]
  exact get?_foldl get?_giveUpSlot Slot.lose_lose numbers w x

/-! ### What ended was missing -/

theorem IsMissing.endDue (h : w.IsMissing s) (timed : w.Timed idle) (now : Timestamp) (timer : Timer) :
    (w.endDue now timer).1.IsMissing s := by
  obtain ⟨slot, found, pending⟩ := h
  rcases timed.endDue_cases now timer found with ⟨-, -, -, hnew, -⟩ | ⟨-, hnew, -⟩
  · exact ⟨_, hnew, (slot.waits_expire w.config.1 now timer).pending pending⟩
  · exact ⟨slot, hnew, pending⟩

/-- The packets of the slots whose timers ended are missing. -/
theorem isMissing_of_mem_endAllDue (hs : w.Sound) (timed : w.Timed []) (now : Timestamp) :
    ∀ e ∈ (w.endAllDue now).2, (w.endAllDue now).1.IsMissing e.sequence := by
  refine endAllDue_induction (P := fun v ended => ∀ e ∈ ended, v.IsMissing e.sequence) hs timed now
    nofun ?_
  intro v ended timer hs timed h e he
  rcases List.mem_append.1 he with he | he
  · exact (h e he).endDue timed now timer
  · obtain ⟨slot, found, runs, -⟩ := exists_of_mem_due (timed.mem_due_of_mem_endDue he)
    have pending := (hs.slots found).timer (by rw [runs]; exact Option.some_ne_none timer)
    exact IsMissing.endDue ⟨slot, found, pending⟩ timed now timer

/-! ### What is held -/

/-- Slots keep their fragment options, and what is held was held before. -/
def HoldsLess (w w' : Window) : Prop :=
  ∀ x new, w'.slots.get? x = some new → ∃ old, w.slots.get? x = some old ∧
    new.fragment = old.fragment ∧ (new.state = .haveData → old.state = .haveData)

theorem HoldsLess.refl (w : Window) : w.HoldsLess w := fun _ new hnew => ⟨new, hnew, rfl, id⟩

theorem HoldsLess.trans (h : w.HoldsLess v) (h' : v.HoldsLess w') : w.HoldsLess w' := by
  intro x new hnew
  obtain ⟨mid, hmid, hfragment', held'⟩ := h' x new hnew
  obtain ⟨old, hold, hfragment, held⟩ := h x mid hmid
  exact ⟨old, hold, hfragment'.trans hfragment, held ∘ held'⟩

theorem OnlyLoses.holdsLess (h : w.OnlyLoses w') : w.HoldsLess w' := by
  intro x new hnew
  obtain ⟨old, hold, rfl | rfl⟩ := h.slots hnew
  · exact ⟨new, hold, rfl, id⟩
  · refine ⟨old, hold, old.fragment_lose, fun held => ?_⟩
    cases old.state_lose.symm.trans held

theorem holdsLess_endAllDue (hs : w.Sound) (timed : w.Timed []) (now : Timestamp) :
    w.HoldsLess (w.endAllDue now).1 := by
  refine endAllDue_induction (P := fun v _ => w.HoldsLess v) hs timed now (.refl w) ?_
  intro v ended timer hs timed h
  refine h.trans fun x new hnew => ?_
  have fires := (timed.fires_endDue now timer).1
  by_cases hx : x ∈ v.due now timer
  · obtain ⟨old, hold, runs, -⟩ := exists_of_mem_due hx
    rw [fires.slots x hx, hold] at hnew
    obtain rfl := Option.some.inj hnew
    have waits := old.waits_expire v.config.1 now timer
    -- A slot whose timer ends is missing, and stays so.
    have pending := waits.pending
      ((hs.slots hold).timer (by rw [runs]; exact Option.some_ne_none timer))
    refine ⟨old, hold, waits.fragment, fun held => ?_⟩
    rw [held] at pending
    cases pending
  · exact ⟨new, fires.others x hx ▸ hnew, rfl, id⟩

/-! ### Lost with an APDU -/

/-- The first packet of an APDU is held, and the number lies between it and another fragment of the
APDU. -/
structure Encloses (w : Window) (first x : SeqNum) : Prop where
  head : w.slotIs first fun slot => slot.state = .haveData ∧ slot.isFragmentOf first
  last : ∃ last, w.slotIs last (·.isFragmentOf first) ∧
    0 < first.gap x ∧ first.gap x < first.gap last ∧ first.gap last < 2147483648

theorem Encloses.of_holdsLess (h : w'.Encloses first x) (less : w.HoldsLess w') :
    w.Encloses first x := by
  obtain ⟨last, hlast, after, before, near⟩ := h.last
  refine ⟨?_, last, ?_, after, before, near⟩
  · obtain ⟨new, hnew, hhead⟩ := slotIs_iff.1 h.head
    obtain ⟨held, fragment⟩ := of_decide_eq_true hhead
    obtain ⟨old, hold, hfragment, hheld⟩ := less first new hnew
    refine slotIs_iff.2 ⟨old, hold, decide_eq_true ⟨hheld held, ?_⟩⟩
    rwa [Slot.isFragmentOf, ← hfragment]
  · obtain ⟨new, hnew, fragment⟩ := slotIs_iff.1 hlast
    obtain ⟨old, hold, hfragment, -⟩ := less last new hnew
    refine slotIs_iff.2 ⟨old, hold, ?_⟩
    rwa [Slot.isFragmentOf, ← hfragment]

/-- The APDU at the front, when it is given up, takes along those missing packets that it encloses. -/
theorem TakesAlong.encloses (h : w.TakesAlong w.commitLead x) (hs : w.Sound) {head : Slot}
    {f : Fragment} (found : w.slots.get? w.commitLead = some head) (held : head.state = .haveData)
    (fragment : head.fragment = some f) (here : f.apduFirst = w.commitLead)
    (missing : w.slots.get? x = some slot) (pending : slot.state.repairPending)
    (bare : slot.fragment = none) : w.Encloses w.commitLead x := by
  have apart : x ≠ w.commitLead := by
    rintro rfl
    obtain rfl := Option.some.inj (found.symm.trans missing)
    rw [held] at pending
    cases pending
  obtain hx | ⟨other, f', -, hother, hf', hspread, -⟩ := h
  · exact absurd hx apart
  obtain rfl := Option.some.inj (hother.symm.trans found)
  obtain rfl := Option.some.inj (hf'.symm.trans fragment)
  have hct := hs.place_commitTrail_le
  have hcl := hs.commitLead_le
  have ahead : w.Ahead w.commitLead := hs.ahead_iff.2 ⟨hs.commitTrail_le, place_lt_of_get? found⟩
  have start : w.spreadStart f'.apduFirst = w.commitLead := by
    rw [spreadStart, here, if_neg]
    rw [hs.before_iff hcl hct]
    exact Nat.not_lt.2 hs.commitTrail_le
  have hlast := ahead_spreadEnd f'.apduFirst hs ahead
  rw [mem_spread hs ahead, start] at hspread
  rw [here] at hspread hlast
  have hnear := hs.gap_next_le
  unfold Ahead at hlast
  have hgap : w.commitLead.gap x = w.commitTrail.gap x - w.commitTrail.gap w.commitLead :=
    SeqNum.gap_split hspread.1
  have hgapLast := SeqNum.gap_split (hspread.1.trans hspread.2)
  have after : w.commitLead.gap x ≠ 0 := fun hzero => apart (SeqNum.gap_eq_zero_iff.1 hzero).symm
  rcases w.spreadEnd_eq_or_mem w.commitLead w.commitLead with hend | ⟨-, -, hfragment⟩
  · rw [hend] at hspread
    omega
  · refine ⟨slotIs_iff.2 ⟨other, found, decide_eq_true ⟨held, ?_⟩⟩, _, hfragment,
      Nat.pos_of_ne_zero after, ?_, by omega⟩
    · simp [Slot.isFragmentOf, fragment, here]
    · -- The last fragment is known to be one, and the missing packet is not.
      refine Nat.lt_of_le_of_ne (by omega) fun heq => ?_
      have hsame : x = w.spreadEnd w.commitLead w.commitLead := by
        rw [← SeqNum.add_gap w.commitLead x, heq, SeqNum.add_gap]
      rw [← hsame, slotIs, missing] at hfragment
      simp [Slot.isFragmentOf, bare] at hfragment

/-- A slot that is lost stays lost as long as its number is there. -/
theorem OnlyLoses.slotIs_lost (h : w.OnlyLoses w') (lost : w.slotIs x (·.state = .lost))
    (inside : w'.slots.Contains x) : w'.slotIs x (·.state = .lost) := by
  obtain ⟨new, hnew⟩ := SlotRing.exists_get? inside
  obtain ⟨old, hold, hcases⟩ := h.slots hnew
  rw [slotIs, hold] at lost
  refine slotIs_iff.2 ⟨new, hnew, ?_⟩
  rcases hcases with rfl | rfl
  · exact lost
  · exact decide_eq_true old.state_lose

/-- The slot was lost together with an APDU that encloses it. -/
def LostInside (w w' : Window) (x : SeqNum) : Prop :=
  ∃ first, w.Encloses first x ∧ w'.slotIs first (·.state = .lost) ∧ w'.slotIs x (·.state = .lost)

/-- A step at the front leaves a slot alone whose packet is missing, or gives it up with the APDU that
begins there. -/
theorem get?_resolveStep_of_pending (hs : w.Sound) (hstep : w.resolveStep? = some w')
    (missing : w.slots.get? x = some slot) (pending : slot.state.repairPending)
    (bare : slot.fragment = none) : w'.slots.get? x = some slot ∨ w.LostInside w' x := by
  have spoils : ∀ {head : Slot} {f : Fragment}, w.slots.get? w.commitLead = some head →
      head.state = .haveData → head.fragment = some f → f.apduFirst = w.commitLead →
      ∀ counters, ({ w with counters }.loseApdu w.commitLead).slots.get? x = some slot ∨
        w.LostInside ({ w with counters }.loseApdu w.commitLead) x := by
    intro head f found held fragment here counters
    have inside : ({ w with counters }.loseApdu w.commitLead).slots.Contains x :=
      (contains_of_frame_eq (frame_loseApdu _ w.commitLead)).2 (contains_of_get? missing)
    obtain ⟨new, hnew⟩ := SlotRing.exists_get? inside
    obtain ⟨old, hold, hcases⟩ := get?_loseApdu_cases hnew
    obtain rfl := Option.some.inj (missing.symm.trans hold)
    rcases hcases with rfl | ⟨along, rfl⟩
    · exact .inl hnew
    · obtain ⟨front, hfront, hlost⟩ := get?_loseApdu_self (w := { w with counters }) found
      exact .inr ⟨_, (takesAlong_of_counters along).encloses hs found held fragment here missing
        pending bare, slotIs_iff.2 ⟨front, hfront, decide_eq_true hlost⟩,
        slotIs_iff.2 ⟨_, hnew, decide_eq_true slot.state_lose⟩⟩
  cases frontStep hstep with
  | single | whole | settled => exact .inl missing
  | orphan found held =>
    have apart : x ≠ w.commitLead := by
      rintro rfl
      obtain rfl := Option.some.inj (found.symm.trans missing)
      rw [held] at pending
      cases pending
    left
    rw [get?_giveUpSlot, if_neg apart, missing]
  | collapse found held fragment here => exact spoils found held fragment here w.counters
  | garble found held fragment here => exact spoils found held fragment here _

theorem LostInside.of_later {v' : Window} (h : v.LostInside v' x) (less : w.HoldsLess v)
    (later : v'.OnlyLoses w') (inside : ∀ y, v'.slots.Contains y → w'.slots.Contains y) :
    w.LostInside w' x := by
  have still : ∀ y, v'.slotIs y (·.state = .lost) → w'.slotIs y (·.state = .lost) := by
    intro y lost
    obtain ⟨slot, found, -⟩ := slotIs_iff.1 lost
    exact later.slotIs_lost lost (inside y (contains_of_get? found))
  obtain ⟨first, encloses, hfirst, hx⟩ := h
  exact ⟨first, encloses.of_holdsLess less, still first hfirst, still x hx⟩

theorem get?_resolve_of_pending (hs : w.Sound) (missing : w.slots.get? x = some slot)
    (pending : slot.state.repairPending) (bare : slot.fragment = none) :
    w.resolve.slots.get? x = some slot ∨ w.LostInside w.resolve x := by
  unfold resolve
  generalize 2 * w.commitLead.gap w.next = steps
  induction steps generalizing w with
  | zero => exact .inl missing
  | succ steps ih =>
    rw [resolveSteps]
    split
    · exact .inl missing
    next w' hstep =>
      rcases get?_resolveStep_of_pending hs hstep missing pending bare with same | lost
      · refine (ih ((moves_resolveStep hs hstep).sound hs) same).imp_right fun lost => ?_
        exact lost.of_later (onlyLoses_resolveStep hstep).holdsLess (.refl _) fun _ => id
      · exact .inr (lost.of_later (.refl w) (onlyLoses_resolveSteps steps w')
          fun y => (contains_resolveSteps steps w' y).2)

/-! ### Sweeps -/

theorem sweepAll_of_contains (hs : w.Sound) (inside : w.slots.Contains x) (now : Timestamp) :
    (w.sweepAll now).1 =
      ((Ended.exhausted (w.endAllDue now).2).foldl loseApdu (w.endAllDue now).1).resolve := by
  obtain ⟨slot, found⟩ := SlotRing.exists_get? inside
  unfold sweepAll
  generalize w.endAllDue now = r
  rw [hs.isDefined_of_get? found]
  rfl

/-- Giving up what is exhausted changes the slots of the exhausted numbers and no other. -/
theorem get?_loseExhausted (hs : w.Sound) (timed : w.Timed []) (bare : w.Bare) (now : Timestamp)
    (x : SeqNum) :
    ((Ended.exhausted (w.endAllDue now).2).foldl loseApdu (w.endAllDue now).1).slots.get? x =
      if x ∈ Ended.exhausted (w.endAllDue now).2 then ((w.endAllDue now).1.slots.get? x).map Slot.lose
      else (w.endAllDue now).1.slots.get? x := by
  have missing := isMissing_of_mem_endAllDue hs timed now
  have bare' := (moves_endAllDue hs now).1.bare hs bare
  generalize w.endAllDue now = r at missing bare' ⊢
  refine get?_loseAll_of_none (fun s hs => ?_) x
  obtain ⟨e, he, rfl⟩ := List.mem_map.1 hs
  exact bare'.fragment_of_isMissing (missing e (List.mem_filter.1 he).1)

/-- The slots whose requests are used up are lost. -/
theorem lost_of_exhausted (hs : w.Sound) (timed : w.Timed []) (bare : w.Bare)
    (hx : x ∈ Ended.exhausted (w.endAllDue now).2) :
    (w.sweepAll now).1.slotIs x (·.state = .lost) := by
  have inside := contains_of_exhausted hs hx
  have lost := get?_loseExhausted hs timed bare now x
  have inside' := (contains_sweepAll w now x).2 inside
  obtain ⟨slot, found⟩ :=
    SlotRing.exists_get? ((contains_of_frame_eq (w.frame_endAllDue now)).2 inside)
  rw [if_pos hx, found] at lost
  rw [sweepAll_of_contains hs inside] at inside' ⊢
  exact (onlyLoses_resolve _).slotIs_lost (slotIs_iff.2 ⟨_, lost, decide_eq_true slot.state_lose⟩)
    inside'

/-- A slot that waits on after the timers ended stays as it is, unless it is lost with an APDU. -/
theorem get?_sweepAll_of_pending (hs : w.Sound) (timed : w.Timed []) (bare : w.Bare)
    (found : (w.endAllDue now).1.slots.get? x = some slot) (pending : slot.state.repairPending)
    (spared : x ∉ Ended.exhausted (w.endAllDue now).2) :
    (w.sweepAll now).1.slots.get? x = some slot ∨ w.LostInside (w.sweepAll now).1 x := by
  have inside := (contains_of_frame_eq (w.frame_endAllDue now)).1 (contains_of_get? found)
  have still := get?_loseExhausted hs timed bare now x
  have alone := (moves_endAllDue hs now).1.bare hs bare x slot found pending
  rw [if_neg spared, found] at still
  rw [sweepAll_of_contains hs inside]
  refine (get?_resolve_of_pending ((moves_loseExhausted hs now).sound hs) still pending alone).imp_right
    fun lost => lost.of_later ?_ (.refl _) fun _ => id
  exact (holdsLess_endAllDue hs timed now).trans (onlyLoses_loseAll _ _).holdsLess

end ReliableMulticast.Window
