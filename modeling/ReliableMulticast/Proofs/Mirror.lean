import ReliableMulticast.Proofs.Reading

/-!
# Windows that differ behind the reader

Two windows mirror each other if they agree in everything but the slots behind the reader: how many
of these there are, and what they hold. What a window does to its front, to the slots ahead of the
reader and to its timers depends on nothing else, so it is the same for windows that mirror each other
and leaves them so.
-/

namespace ReliableMulticast

theorem takeWhile_congr {α : Type} {p q : α → Bool} {l : List α} (h : ∀ x ∈ l, p x = q x) :
    l.takeWhile p = l.takeWhile q := by
  induction l with
  | nil => rfl
  | cons x l ih =>
    rw [List.takeWhile_cons, List.takeWhile_cons, h x (List.mem_cons_self ..),
      ih fun y hy => h y (List.mem_cons_of_mem x hy)]

namespace Window

/-- The windows differ at most in the slots behind the reader. -/
structure Mirrors (w w' : Window) : Prop where
  frame : w'.frame = { w.frame with fault := w'.fault, trail := w'.trail, size := w'.slots.size }
  senderTrail : w'.senderTrail = w.senderTrail
  losses : w'.counters.losses = w.counters.losses
  queues : w'.queues = w.queues
  next : w'.next = w.next
  slots : ∀ x, w.Ahead x → w'.slots.get? x = w.slots.get? x

variable {w w' v v' : Window} {s x : SeqNum}

/-- No timer runs behind the reader. -/
theorem Sound.timer_eq_none (h : w.Sound) {slot : Slot} (found : w.slots.get? x = some slot)
    (behind : ¬ w.Ahead x) : slot.timer = none := by
  by_contra timer
  exact behind (h.ahead_of_pending found ((h.slots found).timer timer))

namespace Mirrors

theorem refl (w : Window) : w.Mirrors w := ⟨rfl, rfl, rfl, rfl, rfl, fun _ _ => rfl⟩

theorem config (h : w.Mirrors w') : w'.config = w.config := congrArg Frame.config h.frame

theorem groupSize (h : w.Mirrors w') : w'.groupSize = w.groupSize :=
  congrArg Frame.groupSize h.frame

theorem isDefined (h : w.Mirrors w') : w'.isDefined = w.isDefined :=
  congrArg Frame.isDefined h.frame

theorem isGone (h : w.Mirrors w') : w'.isGone = w.isGone := congrArg Frame.isGone h.frame

theorem commitTrail (h : w.Mirrors w') : w'.commitTrail = w.commitTrail :=
  congrArg Frame.commitTrail h.frame

theorem commitLead (h : w.Mirrors w') : w'.commitLead = w.commitLead :=
  congrArg Frame.commitLead h.frame

theorem unreportedLosses (h : w.Mirrors w') : w'.unreportedLosses = w.unreportedLosses :=
  congrArg Frame.unreportedLosses h.frame

theorem ahead_iff (h : w.Mirrors w') : w'.Ahead x ↔ w.Ahead x := by
  rw [Ahead, Ahead, h.commitTrail, h.next]

theorem symm (h : w.Mirrors w') : w'.Mirrors w where
  frame := by rw [h.frame]; rfl
  senderTrail := h.senderTrail.symm
  losses := h.losses.symm
  queues := h.queues.symm
  next := h.next.symm
  slots := fun x hx => (h.slots x (h.ahead_iff.1 hx)).symm

theorem trans (h : w.Mirrors v) (h' : v.Mirrors w') : w.Mirrors w' where
  frame := by rw [h'.frame, h.frame]
  senderTrail := h'.senderTrail.trans h.senderTrail
  losses := h'.losses.trans h.losses
  queues := h'.queues.trans h.queues
  next := h'.next.trans h.next
  slots := fun x hx => (h'.slots x (h.ahead_iff.2 hx)).trans (h.slots x hx)

/-- Windows mirror each other after changes in place that come to the same ahead of the reader. -/
theorem change (h : w.Mirrors w') (hf : v.frame = w.frame) (hf' : v'.frame = w'.frame)
    (senderTrail : v'.senderTrail = v.senderTrail)
    (losses : v'.counters.losses = v.counters.losses) (queues : v'.queues = v.queues)
    (slots : ∀ x, w.Ahead x → v'.slots.get? x = v.slots.get? x) : v.Mirrors v' where
  frame := by
    have hfault : v'.fault = w'.fault := congrArg Frame.fault hf'
    have htrail : v'.trail = w'.trail := congrArg Frame.trail hf'
    have hsize : v'.slots.size = w'.slots.size := congrArg Frame.size hf'
    rw [hf', hf, hfault, htrail, hsize]
    exact h.frame
  senderTrail := senderTrail
  losses := losses
  queues := queues
  next := by rw [next_of_frame_eq hf', next_of_frame_eq hf, h.next]
  slots := fun x hx => slots x (ahead_of_frame_eq hf.symm hx)

theorem modify (h : w.Mirrors w') (s : SeqNum) (change : Slot → Slot) :
    (w.modify s change).Mirrors (w'.modify s change) :=
  h.change (frame_modify w s change) (frame_modify w' s change) h.senderTrail h.losses h.queues
    fun x hx => by rw [get?_modify, get?_modify, h.slots x hx]

/-! ### Giving up -/

theorem slotIs (h : w.Mirrors w') (ahead : w.Ahead x) (p : Slot → Bool) :
    w'.slotIs x p = w.slotIs x p := by
  rw [Window.slotIs, h.slots x ahead, Window.slotIs]

/-- A change of single slots ahead of the reader is the same after each of several. -/
theorem foldl {change : Window → SeqNum → Window} (kept : Window → Prop)
    (hframe : ∀ w s, (change w s).frame = w.frame)
    (keep : ∀ {w s}, kept w → w.Ahead s → kept (change w s))
    (one : ∀ {w w' s}, w.Mirrors w' → kept w → w.Ahead s → (change w s).Mirrors (change w' s))
    (h : w.Mirrors w') (hw : kept w) {numbers : List SeqNum} (ahead : ∀ s ∈ numbers, w.Ahead s) :
    (numbers.foldl change w).Mirrors (numbers.foldl change w') := by
  induction numbers generalizing w w' with
  | nil => exact h
  | cons s numbers ih =>
    have hs := ahead s (List.mem_cons_self ..)
    exact ih (one h hw hs) (keep hw hs) fun x hx =>
      ahead_of_frame_eq (hframe w s) (ahead x (List.mem_cons_of_mem s hx))

theorem giveUpSlot (h : w.Mirrors w') (ahead : w.Ahead s) :
    (w.giveUpSlot s).Mirrors (w'.giveUpSlot s) := by
  have given := h.modify s Slot.giveUp
  unfold Window.giveUpSlot
  rw [h.slots s ahead]
  split
  · exact h
  · split
    · exact h
    next slot _ _ =>
      exact given.change rfl rfl h.senderTrail (congrArg (· + 1) h.losses)
        (congrArg (·.unqueue slot) h.queues) given.slots

theorem giveUpMember (h : w.Mirrors w') (first : SeqNum) (ahead : w.Ahead s) :
    (Window.giveUpMember first w s).Mirrors (Window.giveUpMember first w' s) := by
  unfold Window.giveUpMember
  rw [h.slotIs ahead]
  split
  · exact h.giveUpSlot ahead
  · exact h

/-- The search for the last fragment of an APDU looks at numbers ahead of the reader only. -/
theorem lastFragment (h : w.Mirrors w') (first s : SeqNum) {start : SeqNum}
    (ahead : ∀ x ∈ start.upTo w.next, w.Ahead x) :
    w'.lastFragment first s start = w.lastFragment first s start := by
  unfold Window.lastFragment
  rw [h.next]
  simp only
  congr 1
  rw [takeWhile_congr fun x hx => h.slotIs (ahead x hx) _]
  refine List.filter_congr fun x hx => ?_
  rw [h.slotIs (ahead x ((List.takeWhile_sublist _).mem hx))]

theorem spread (h : w.Mirrors w') (hs : w.Sound) (first : SeqNum) (ahead : w.Ahead s) :
    w'.spread first s = w.spread first s := by
  have hstart : w'.spreadStart first = w.spreadStart first := by
    rw [spreadStart, h.commitTrail, spreadStart]
  have hnext := hs.gap_next_le
  unfold Window.spread spreadEnd
  rw [hstart, (h.giveUpSlot ahead).lastFragment]
  intro x hx
  have hahead : w.Ahead x := by
    rw [next_of_frame_eq (frame_giveUpSlot w s), ← SeqNum.add_gap w.commitTrail w.next,
      mem_spreadStart_upTo (by omega)] at hx
    exact hx.2
  exact ahead_of_frame_eq (frame_giveUpSlot w s) hahead

theorem loseApdu (h : w.Mirrors w') (hs : w.Sound) (ahead : w.Ahead s) :
    (w.loseApdu s).Mirrors (w'.loseApdu s) := by
  have given := h.giveUpSlot ahead
  cases hf : (w.slots.get? s).bind Slot.fragment with
  | none => rwa [loseApdu_of_none hf, loseApdu_of_none (by rw [h.slots s ahead, hf])]
  | some f =>
    rw [loseApdu_of_some hf, loseApdu_of_some (by rw [h.slots s ahead, hf]),
      h.spread hs f.apduFirst ahead]
    refine given.foldl (fun _ => True) (frame_giveUpMember f.apduFirst) (fun _ _ => trivial)
      (fun h _ hx => h.giveUpMember f.apduFirst hx) trivial fun x hx => ?_
    exact ahead_of_frame_eq (frame_giveUpSlot w s) (ahead_of_mem_spread hs ahead hx)

theorem loseAll (h : w.Mirrors w') (hs : w.Sound) {numbers : List SeqNum}
    (ahead : ∀ s ∈ numbers, w.Ahead s) :
    (numbers.foldl Window.loseApdu w).Mirrors (numbers.foldl Window.loseApdu w') :=
  h.foldl Sound frame_loseApdu Sound.loseApdu (fun h => h.loseApdu) hs ahead

/-! ### The front -/

/-- The slots from a number ahead of the reader on. -/
theorem slotsFrom (h : w.Mirrors w') (hs : w.Sound) (hs' : w'.Sound) (ahead : w.Ahead s) :
    w'.slots.slotsFrom s = w.slots.slotsFrom s := by
  have hplace := hs.ahead_iff.1 ahead
  have hsize := hs.size_le
  rw [slotsFrom_eq_slice (contains_iff_place.2 (hs'.ahead_iff.1 (h.ahead_iff.2 ahead)).2),
    slotsFrom_eq_slice (contains_iff_place.2 hplace.2), h.next]
  refine List.filterMap_congr fun x hx => h.slots x ?_
  obtain ⟨k, hk, rfl⟩ := SeqNum.mem_run.1 hx
  have hgap : s.gap w.next = w.slots.size - w.place s := by
    rw [gap_eq_place_sub (by rw [place_next]; omega), place_next]
  have := w.place_add (x := s) (n := k) (by omega)
  exact hs.ahead_iff.2 ⟨by omega, by omega⟩

theorem scanApdu (h : w.Mirrors w') (hs : w.Sound) (hs' : w'.Sound) (ahead : w.Ahead s)
    (total : Nat) : w'.scanApdu s total = w.scanApdu s total := by
  rw [Window.scanApdu, h.slotsFrom hs hs' ahead, Window.scanApdu]

theorem get?_commitLead (h : w.Mirrors w') (hs : w.Sound) (hs' : w'.Sound) :
    w'.slots.get? w.commitLead = w.slots.get? w.commitLead := by
  by_cases ahead : w.Ahead w.commitLead
  · exact h.slots _ ahead
  · have outside : w.slots.get? w.commitLead = none :=
      Option.eq_none_iff_forall_ne_some.2 fun slot found => ahead (hs.ahead_of_commitLead found)
    rw [outside, ← h.commitLead]
    refine Option.eq_none_iff_forall_ne_some.2 fun slot found => ahead ?_
    rw [← h.ahead_iff, ← h.commitLead]
    exact hs'.ahead_of_commitLead found

theorem passFront (h : w.Mirrors w') (count : Nat) :
    (w.passFront count).Mirrors (w'.passFront count) where
  frame := by
    change { w'.frame with commitLead := w'.commitLead + count } = _
    rw [h.frame, h.commitLead]
    rfl
  senderTrail := h.senderTrail
  losses := h.losses
  queues := h.queues
  next := h.next
  slots := h.slots

theorem addMalformed (h : w.Mirrors w') : { w with counters := w.counters.addMalformed }.Mirrors
    { w' with counters := w'.counters.addMalformed } :=
  h.change rfl rfl h.senderTrail h.losses h.queues h.slots

/-- Both windows take the same step at the front, or none. -/
theorem resolveStep? (h : w.Mirrors w') (hs : w.Sound) (hs' : w'.Sound) :
    (w.resolveStep? = none ∧ w'.resolveStep? = none) ∨
      ∃ v v', w.resolveStep? = some v ∧ w'.resolveStep? = some v' ∧ v.Mirrors v' := by
  unfold Window.resolveStep?
  rw [h.commitLead, h.get?_commitLead hs hs']
  cases found : w.slots.get? w.commitLead with
  | none => exact .inl ⟨rfl, rfl⟩
  | some slot =>
    have ahead := hs.ahead_of_commitLead found
    simp only
    split
    · exact .inl ⟨rfl, rfl⟩
    split
    · cases slot.fragment with
      | none => exact .inr ⟨_, _, rfl, rfl, h.passFront 1⟩
      | some f =>
        simp only [h.scanApdu hs hs' ahead]
        split
        · exact .inr ⟨_, _, rfl, rfl, h.giveUpSlot ahead⟩
        cases w.scanApdu w.commitLead f.totalLength.toNat with
        | complete count => exact .inr ⟨_, _, rfl, rfl, h.passFront count⟩
        | incomplete => exact .inl ⟨rfl, rfl⟩
        | lost => exact .inr ⟨_, _, rfl, rfl, h.loseApdu hs ahead⟩
        | malformed =>
          have counted : { w with counters := w.counters.addMalformed }.Sound :=
            hs.of_slots_eq rfl rfl
          have lost := h.addMalformed.loseApdu counted ahead
          rw [h.commitLead] at lost
          exact .inr ⟨_, _, rfl, rfl, lost⟩
    · exact .inr ⟨_, _, rfl, rfl, h.passFront 1⟩

theorem resolve (h : w.Mirrors w') (hs : w.Sound) (hs' : w'.Sound) :
    w.resolve.Mirrors w'.resolve := by
  unfold Window.resolve
  rw [h.commitLead, h.next]
  generalize 2 * w.commitLead.gap w.next = steps
  induction steps generalizing w w' with
  | zero => exact h
  | succ steps ih =>
    rw [resolveSteps, resolveSteps]
    rcases h.resolveStep? hs hs' with ⟨hnone, hnone'⟩ | ⟨v, v', hv, hv', hmirror⟩
    · rw [hnone, hnone']
      exact h
    · rw [hv, hv']
      exact ih hmirror ((moves_resolveStep hs hv).sound hs) ((moves_resolveStep hs' hv').sound hs')

/-! ### Reading -/

theorem apduCount? (h : w.Mirrors w') (hs : w.Sound) (hs' : w'.Sound) (ahead : w.Ahead s)
    (head : Slot) : w'.apduCount? s head = w.apduCount? s head := by
  unfold Window.apduCount?
  cases head.fragment with
  | none => rfl
  | some f => simp only [h.scanApdu hs hs' ahead]

theorem joinPayloads (h : w.Mirrors w') {numbers : List SeqNum} (ahead : ∀ s ∈ numbers, w.Ahead s) :
    w'.joinPayloads numbers = w.joinPayloads numbers := by
  unfold Window.joinPayloads
  refine List.foldl_ext _ _ _ fun bytes s hs => ?_
  rw [h.slots s (ahead s hs)]

/-- The reader of both windows moves on over `n` numbers. -/
theorem forward (h : w.Mirrors w') {n : Nat} (inside : n ≤ w.commitTrail.gap w.next)
    (c c' : Counters) (losses : c'.losses = c.losses) :
    { w with commitTrail := w.commitTrail + n, counters := c }.Mirrors
      { w' with commitTrail := w.commitTrail + n, counters := c' } where
  frame := by
    change { w'.frame with commitTrail := w.commitTrail + n } = _
    rw [h.frame]
    rfl
  senderTrail := h.senderTrail
  losses := losses
  queues := h.queues
  next := h.next
  slots := fun x (hx : (w.commitTrail + n).gap x < (w.commitTrail + n).gap w.next) => by
    refine h.slots x ?_
    have hnext := w.commitTrail.toNat_lt
    unfold Ahead
    simp only [SeqNum.gap_eq, SeqNum.toNat_add] at *
    omega

/-- An APDU of both windows is delivered. -/
theorem deliver (h : w.Mirrors w') {count : Nat} (inside : count ≤ w.commitTrail.gap w.next) :
    (w.deliver count).1.Mirrors (w'.deliver count).1 ∧
      (w'.deliver count).2 = (w.deliver count).2 := by
  have ahead : ∀ x ∈ w.commitTrail.run count, w.Ahead x := by
    intro x hx
    obtain ⟨k, hk, rfl⟩ := SeqNum.mem_run.1 hx
    have := w.commitTrail.gap_lt w.next
    rw [Ahead, SeqNum.gap_add _ (by omega)]
    omega
  have hpayload := h.joinPayloads ahead
  have committed : (w.commitSlots (w.commitTrail.run count)).Mirrors
      (w'.commitSlots (w.commitTrail.run count)) :=
    h.foldl (fun _ => True) (fun w s => frame_modify w s Slot.commit) (fun _ _ => trivial)
      (fun h _ _ => h.modify _ Slot.commit) trivial ahead
  have hframe := frame_commitSlots w (w.commitTrail.run count)
  have htrail : (w.commitSlots (w.commitTrail.run count)).commitTrail = w.commitTrail :=
    congrArg Frame.commitTrail hframe
  have inside' : count ≤ (w.commitSlots (w.commitTrail.run count)).commitTrail.gap
      (w.commitSlots (w.commitTrail.run count)).next := by
    rwa [htrail, next_of_frame_eq hframe]
  have moved := committed.forward inside'
    (w.counters.addMessage (w.joinPayloads (w.commitTrail.run count)).size)
    (w'.counters.addMessage (w.joinPayloads (w.commitTrail.run count)).size) h.losses
  rw [htrail] at moved
  unfold Window.deliver
  simp only [h.commitTrail, hpayload]
  exact ⟨moved, trivial⟩

theorem passLost (h : w.Mirrors w') (inside : 1 ≤ w.commitTrail.gap w.next) :
    { w with commitTrail := w.commitTrail.next }.Mirrors
      { w' with commitTrail := w'.commitTrail.next } := by
  rw [h.commitTrail]
  exact h.forward inside w.counters w'.counters h.losses

/-- Both windows hand out the same. -/
theorem takeReady (h : w.Mirrors w') (hs : w.Sound) (hs' : w'.Sound) (length room : Nat) :
    (takeReady room length w).1.Mirrors (takeReady room length w').1 ∧
      (takeReady room length w').2 = (takeReady room length w).2 := by
  induction length generalizing room w w' with
  | zero => exact ⟨h, rfl⟩
  | succ length ih =>
    unfold Window.takeReady
    by_cases hdone : w.commitTrail = w.commitLead ∨ room = 0
    · rw [if_pos hdone, if_pos (by rwa [h.commitTrail, h.commitLead])]
      exact ⟨h, rfl⟩
    rw [if_neg hdone, if_neg (by rwa [h.commitTrail, h.commitLead])]
    rw [not_or] at hdone
    have unread' : w'.commitTrail ≠ w'.commitLead := by
      rw [h.commitTrail, h.commitLead]
      exact hdone.1
    have hlt := hs.place_lt_of_unread hdone.1
    have hcl := hs.commitLead_le
    have hgap := hs.gap_next
    have ahead : w.Ahead w.commitTrail := hs.ahead_iff.2 ⟨Nat.le_refl _, by omega⟩
    have same : w'.slots.get? w'.commitTrail = w.slots.get? w.commitTrail := by
      rw [h.commitTrail]
      exact h.slots _ ahead
    obtain ⟨slot, found, lost | ⟨held, count, whole⟩⟩ := hs.front_cases hdone.1
    · have found' := same.trans found
      obtain ⟨hmirror, hanswer⟩ := ih (h.passLost (by omega)) (hs.passLost hdone.1 found lost)
        (hs'.passLost unread' found' lost) room
      simp only [found, found', if_pos lost, hanswer]
      exact ⟨hmirror, trivial⟩
    · have found' := same.trans found
      have whole' : w'.apduCount? w'.commitTrail slot = some count := by
        rw [h.commitTrail, h.apduCount? hs hs' ahead, whole]
      obtain ⟨hinside, -⟩ := hs.front_slice hdone.1 found held whole
      obtain ⟨hdeliver, hmessage⟩ := h.deliver (show count ≤ _ by omega)
      obtain ⟨hmirror, hanswer⟩ := ih hdeliver (hs.deliver hdone.1 found held whole)
        (hs'.deliver unread' found' held whole') (room - 1)
      simp only [found, found', if_neg held, whole, whole', hmessage, hanswer]
      exact ⟨hmirror, trivial⟩

theorem readReady (h : w.Mirrors w') (hs : w.Sound) (hs' : w'.Sound) (count : Nat) :
    (w.readReady count).1.Mirrors (w'.readReady count).1 ∧
      (w'.readReady count).2 = (w.readReady count).2 := by
  have reported : { w with unreportedLosses := 0 }.Mirrors { w' with unreportedLosses := 0 } :=
    { h with
      frame := by
        change { w'.frame with unreportedLosses := 0 } = _
        rw [h.frame]
        rfl }
  obtain ⟨_, hmoves, -⟩ := takeReady_spec (w.commitTrail.gap w.commitLead) count hs.report
  obtain ⟨_, hmoves', -⟩ := takeReady_spec (w.commitTrail.gap w.commitLead) count hs'.report
  obtain ⟨hmirror, hanswer⟩ :=
    reported.takeReady hs.report hs'.report (w.commitTrail.gap w.commitLead) count
  have hlength : w'.commitTrail.gap w'.commitLead = w.commitTrail.gap w.commitLead := by
    rw [h.commitTrail, h.commitLead]
  unfold Window.readReady
  rw [hlength, h.unreportedLosses]
  simp only [hanswer]
  exact ⟨hmirror.resolve (hmoves.sound hs.report) (hmoves'.sound hs'.report), trivial⟩

/-! ### Sweeping -/

theorem expiryIn (h : w.Mirrors w') (hs : w.Sound) (hs' : w'.Sound) (timer : Timer) :
    w'.expiryIn timer = w.expiryIn timer := by
  have bare : ∀ {v : Window}, v.Sound → ∀ x, ¬ v.Ahead x → v.expiryIn timer x = none := by
    intro v hv x hx
    unfold Window.expiryIn
    cases found : v.slots.get? x with
    | none => rfl
    | some slot =>
      refine if_neg ?_
      rw [hv.timer_eq_none found hx]
      exact (Option.some_ne_none _).symm
  funext x
  by_cases ahead : w.Ahead x
  · rw [Window.expiryIn, h.slots x ahead, Window.expiryIn]
  · rw [bare hs x ahead, bare hs' x (mt h.ahead_iff.1 ahead)]

theorem endTimers (h : w.Mirrors w') (timer : Timer) (now : Timestamp) {due : List SeqNum}
    (ahead : ∀ s ∈ due, w.Ahead s) :
    (endTimers timer now due w).1.Mirrors (endTimers timer now due w').1 ∧
      (endTimers timer now due w').2 = (endTimers timer now due w).2 := by
  induction due generalizing w w' with
  | nil => exact ⟨h, rfl⟩
  | cons s due ih =>
    have rest : ∀ {v : Window}, v.frame = w.frame → ∀ x ∈ due, v.Ahead x := fun hf x hx =>
      ahead_of_frame_eq hf (ahead x (List.mem_cons_of_mem s hx))
    simp only [Window.endTimers, h.slots s (ahead s (List.mem_cons_self ..)), h.config]
    cases w.slots.get? s with
    | none => exact ih h (rest rfl)
    | some slot =>
      obtain ⟨hmirror, hended⟩ := ih (h.modify s fun _ => (slot.expire w.config.1 now timer).1)
        (rest (frame_modify w s _))
      exact ⟨hmirror, by simp only [hended]⟩

theorem queued (h : w.Mirrors w') (queues : TimerQueues) :
    { w with queues }.Mirrors { w' with queues } :=
  h.change rfl rfl h.senderTrail h.losses rfl h.slots

theorem endDue (h : w.Mirrors w') (hs : w.Sound) (hs' : w'.Sound) (now : Timestamp)
    (timer : Timer) :
    (w.endDue now timer).1.Mirrors (w'.endDue now timer).1 ∧
      (w'.endDue now timer).2 = (w.endDue now timer).2 := by
  unfold Window.endDue
  rw [h.queues, h.expiryIn hs hs']
  rcases hpop : w.queues.popDue timer now (w.expiryIn timer) with ⟨due, queues⟩
  have ahead : ∀ s ∈ due, w.Ahead s := by
    intro s hdue
    rw [show due = (w.queues.popDue timer now (w.expiryIn timer)).1 by rw [hpop]] at hdue
    obtain ⟨slot, found, pending⟩ := hs.isMissing_of_expiryIn timer
      (TimerQueues.isSome_of_mem_splitDue hdue)
    exact hs.ahead_of_pending found pending
  obtain ⟨hmirror, hended⟩ := (h.queued queues).endTimers timer now ahead
  simp only
  rw [hended, hmirror.queues]
  exact ⟨hmirror.queued _, rfl⟩

theorem endAllDue (h : w.Mirrors w') (hs : w.Sound) (hs' : w'.Sound) (now : Timestamp) :
    (w.endAllDue now).1.Mirrors (w'.endAllDue now).1 ∧
      (w'.endAllDue now).2 = (w.endAllDue now).2 := by
  obtain ⟨first, hfirst⟩ := h.endDue hs hs' now .backOff
  have hs₁ := (moves_endDue hs now .backOff).1.sound hs
  have hs₁' := (moves_endDue hs' now .backOff).1.sound hs'
  obtain ⟨second, hsecond⟩ := first.endDue hs₁ hs₁' now .waitNcf
  obtain ⟨third, hthird⟩ := second.endDue ((moves_endDue hs₁ now .waitNcf).1.sound hs₁)
    ((moves_endDue hs₁' now .waitNcf).1.sound hs₁') now .waitData
  unfold Window.endAllDue
  simp only [hfirst, hsecond, hthird]
  exact ⟨third, trivial⟩

/-- Both windows ask for the same packets. -/
theorem sweepAll (h : w.Mirrors w') (hs : w.Sound) (hs' : w'.Sound) (now : Timestamp) :
    (w.sweepAll now).1.Mirrors (w'.sweepAll now).1 ∧
      (w'.sweepAll now).2 = (w.sweepAll now).2 := by
  unfold Window.sweepAll
  rw [h.isDefined]
  split
  · exact ⟨h, rfl⟩
  · obtain ⟨hmirror, hended⟩ := h.endAllDue hs hs' now
    obtain ⟨hmoves, hahead⟩ := moves_endAllDue hs now
    have hlost := (moves_loseExhausted hs now).sound hs
    have hlost' := (moves_loseExhausted hs' now).sound hs'
    rw [hended] at hlost'
    simp only [hended]
    refine ⟨(hmirror.loseAll (hmoves.sound hs) fun s hexhausted => ?_).resolve hlost hlost',
      trivial⟩
    obtain ⟨e, he, rfl⟩ := List.mem_map.1 hexhausted
    exact hahead e (List.mem_filter.1 he).1

/-- Both windows have to be looked at next at the same moment. -/
theorem firstExpiry (h : w.Mirrors w') (hs : w.Sound) (hs' : w'.Sound) :
    w'.firstExpiry = w.firstExpiry := by
  have bare : ∀ {v : Window}, v.Sound → ∀ x, ¬ v.Ahead x →
      (v.slots.get? x).bind Slot.expiry = none := by
    intro v hv x hx
    cases found : v.slots.get? x with
    | none => rfl
    | some slot =>
      rw [Option.bind_some, Slot.expiry, hv.timer_eq_none found hx]
      rfl
  have same : ∀ x, (w'.slots.get? x).bind Slot.expiry = (w.slots.get? x).bind Slot.expiry := by
    intro x
    by_cases ahead : w.Ahead x
    · rw [h.slots x ahead]
    · rw [bare hs x ahead, bare hs' x (mt h.ahead_iff.1 ahead)]
  unfold Window.firstExpiry frontExpiry
  simp only [h.queues, same]

end Mirrors

end Window

end ReliableMulticast
