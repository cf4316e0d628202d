import ReliableMulticast.Proofs.Accounts
import ReliableMulticast.Proofs.Reassembly

/-!
# Histories without losses

The count of losses never falls, so where it does not grow nothing is given up: data that is held
stays until it is delivered (`Moves.holds`), no packet is counted malformed but those that are
refused as such (`Clean`), and every number that the reader passed was delivered, message after
message (`Lossless.concat`, `Lossless.first`).
-/

namespace ReliableMulticast.Window

variable {w w' w'' : Window} {notes : List Note} {s x : SeqNum}

/-! ### Giving up costs -/

/-- A slot is given up and counted, or nothing happens. -/
theorem giveUpSlot_cases (w : Window) (s : SeqNum) :
    w.giveUpSlot s = w ∨ w.counters.losses < (w.giveUpSlot s).counters.losses := by
  unfold giveUpSlot
  split
  · exact .inl rfl
  · split
    · exact .inl rfl
    · exact .inr (Nat.lt_succ_self _)

theorem loseApdu_cases (w : Window) (s : SeqNum) :
    w.loseApdu s = w ∨ w.counters.losses < (w.loseApdu s).counters.losses := by
  have member : ∀ (first : SeqNum) (w : Window) (s : SeqNum), giveUpMember first w s = w ∨
      w.counters.losses < (giveUpMember first w s).counters.losses := by
    intro first w s
    unfold giveUpMember
    split
    · exact w.giveUpSlot_cases s
    · exact .inl rfl
  have members : ∀ (first : SeqNum) (numbers : List SeqNum) (w : Window),
      numbers.foldl (giveUpMember first) w = w ∨
        w.counters.losses < (numbers.foldl (giveUpMember first) w).counters.losses := by
    intro first numbers
    induction numbers with
    | nil => exact fun _ => .inl rfl
    | cons s numbers ih =>
      intro w
      rw [List.foldl_cons]
      rcases member first w s with hfirst | hfirst
      · rw [hfirst]
        exact ih w
      · rcases ih (giveUpMember first w s) with hrest | hrest
        · rw [hrest]
          exact .inr hfirst
        · exact .inr (Nat.lt_trans hfirst hrest)
  have here := w.giveUpSlot_cases s
  cases hf : (w.slots.get? s).bind Slot.fragment with
  | none => rwa [loseApdu_of_none hf]
  | some f =>
    rw [loseApdu_of_some hf]
    rcases members f.apduFirst (w.spread f.apduFirst s) (w.giveUpSlot s) with hrest | hrest
    · rwa [hrest]
    · refine .inr (Nat.lt_of_le_of_lt ?_ hrest)
      rcases here with he | hlt
      · rw [he]
      · exact Nat.le_of_lt hlt

/-! ### Moves without losses -/

/-- The count of losses never falls. -/
theorem Move.losses_le (hm : w.Move notes w') (h : w.Sound) :
    w.counters.losses ≤ w'.counters.losses := by
  have given : ∀ {v : Window}, v = w ∨ w.counters.losses < v.counters.losses →
      w.counters.losses ≤ v.counters.losses := by
    rintro v (rfl | hlt)
    · exact Nat.le_refl _
    · exact Nat.le_of_lt hlt
  cases hm with
  | aside _ _ losses => exact Nat.le_of_eq losses.symm
  | fill p source now => exact Nat.le_of_eq (losses_fillSlot ..).1.symm
  | lose s => exact given (w.loseApdu_cases s)
  | collapse => exact given (w.loseApdu_cases w.commitLead)
  | garble =>
    rcases loseApdu_cases { w with counters := w.counters.addMalformed } w.commitLead with he | hlt
    · exact Nat.le_of_eq (congrArg (·.counters.losses) he).symm
    · exact Nat.le_of_lt hlt
  | orphan => exact given (w.giveUpSlot_cases w.commitLead)
  | reclaim => exact Nat.le_of_eq (congrArg Counters.losses w.counters_dropTrail.symm)
  | overrun front nonempty =>
    obtain ⟨slot, slots, hpop⟩ := Sound.exists_popTrail? nonempty
    rw [Sound.evictTrail_of_front front hpop]
    exact Nat.le_add_right ..
  | skip target _ empty ahead =>
    rw [h.skip_eq empty ahead]
    exact Nat.le_add_right ..
  | refuse | regroup | define | addPlaceholder | addPacket | wait | keep | pass | passLost | deliver
  | report | retain | free => exact Nat.le_refl _

theorem Moves.losses_le (hm : w.Moves notes w') (h : w.Sound) :
    w.counters.losses ≤ w'.counters.losses := by
  induction hm with
  | done => exact Nat.le_refl _
  | next first _ ih => exact Nat.le_trans (first.losses_le h) (ih (first.sound h))

/-- The packet of the number is held for delivery. -/
def Holds (w : Window) (x : SeqNum) : Prop :=
  ∃ slot, w.slots.get? x = some slot ∧ slot.state = .haveData

/-- What is held was not delivered, so the reader has not come to it. -/
theorem Holds.ahead (hx : w.Holds x) (h : w.Sound) : w.place w.commitTrail ≤ w.place x := by
  obtain ⟨slot, found, held⟩ := hx
  by_contra hbehind
  rcases (h.slots found).settled (by omega) with hd | hl
  · rw [held] at hd
    cases hd
  · rw [held] at hl
    cases hl

theorem Holds.place_lt (hx : w.Holds x) : w.place x < w.slots.size := by
  obtain ⟨slot, found, -⟩ := hx
  exact place_lt_of_get? found

theorem Holds.of_get?_eq (hx : w.Holds x) (same : w'.slots.get? x = w.slots.get? x) : w'.Holds x := by
  obtain ⟨slot, found, held⟩ := hx
  exact ⟨slot, same.trans found, held⟩

theorem Holds.append (hx : w.Holds x) {new : Slot} (next : new.sequence = w.next)
    (room : w.slots.size < w.capacity) : (w.append new).Holds x := by
  refine hx.of_get?_eq ?_
  rw [Sound.get?_append next room, if_neg]
  rintro rfl
  have hplace := hx.place_lt
  rw [place_next] at hplace
  exact Nat.lt_irrefl _ hplace

/-- A change of a slot that leaves data where it is held loses nothing. -/
theorem Holds.modify (hx : w.Holds x) {change : Slot → Slot}
    (keeps : ∀ slot, w.slots.get? s = some slot → slot.state = .haveData →
      (change slot).state = .haveData) : (w.modify s change).Holds x := by
  by_cases hs : x = s
  · subst hs
    obtain ⟨slot, found, held⟩ := hx
    refine ⟨{ change slot with sequence := slot.sequence }, ?_, keeps slot found held⟩
    rw [get?_modify, if_pos rfl, found]
    rfl
  · exact hx.of_get?_eq (by rw [get?_modify, if_neg hs])

/-- So does one of a slot that waits for its packet. -/
theorem Holds.modify_pending (hx : w.Holds x) {slot : Slot} (found : w.slots.get? s = some slot)
    (pending : slot.state.repairPending) (change : Slot → Slot) : (w.modify s change).Holds x := by
  refine hx.modify fun old hold held => ?_
  obtain rfl := Option.some.inj (found.symm.trans hold)
  rw [held] at pending
  cases pending

theorem Holds.dropTrail (hx : w.Holds x) (h : w.Sound) (behind : 0 < w.place w.commitTrail) :
    w.dropTrail.Holds x := by
  have hplace := hx.place_lt
  have hahead := hx.ahead h
  obtain ⟨-, -, hget⟩ := dropTrail_spec (w := w) (by omega)
  refine hx.of_get?_eq ?_
  rw [hget, if_neg]
  rintro rfl
  rw [place_trail] at hahead
  omega

/-- A slot that leaves undelivered is counted. -/
theorem Holds.evictTrail (hx : w.Holds x) (front : w.place w.commitTrail = 0)
    (nonempty : 0 < w.slots.size) :
    w.evictTrail.Holds x ∨ w.counters.losses < w.evictTrail.counters.losses := by
  obtain ⟨old, slots, hpop⟩ := Sound.exists_popTrail? nonempty
  obtain ⟨hold, -, -, -, hget⟩ := SlotRing.popTrail?_eq_some hpop
  rw [Sound.evictTrail_of_front front hpop]
  by_cases hfirst : x = w.slots.trail
  · subst hfirst
    obtain ⟨slot, found, held⟩ := hx
    obtain rfl := Option.some.inj (found.symm.trans hold)
    refine .inr ?_
    rw [held, if_neg (by decide)]
    exact Nat.lt_succ_self _
  · refine .inl (hx.of_get?_eq ?_)
    rw [hget, if_neg hfirst]

/-- What is held is held until it is delivered or given up. -/
theorem Move.holds (hm : w.Move notes w') (h : w.Sound) (hx : w.Holds x) :
    w'.Holds x ∨ x ∈ w.commitTrail.run (Note.advance notes) ∨
      w.counters.losses < w'.counters.losses := by
  have hplace := hx.place_lt
  have given : ∀ {v : Window}, v = w ∨ w.counters.losses < v.counters.losses →
      v.Holds x ∨ x ∈ w.commitTrail.run 0 ∨ w.counters.losses < v.counters.losses := by
    rintro v (rfl | hlt)
    · exact .inl hx
    · exact .inr (.inr hlt)
  cases hm with
  | aside _ slots => exact .inl (hx.of_get?_eq (by rw [slots]))
  | define trail undefined =>
    have := (h.blank undefined).1
    omega
  | addPlaceholder now _ room => exact .inl (hx.append rfl room)
  | addPacket p now _ next room => exact .inl (hx.append next room)
  | fill p source now => exact .inl (hx.modify (s := p.sequence) fun _ _ _ => rfl)
  | wait s change found pending => exact .inl (hx.modify_pending found pending change)
  | keep s p found pending => exact .inl (hx.modify_pending found pending _)
  | lose s => exact given (w.loseApdu_cases s)
  | collapse => exact given (w.loseApdu_cases w.commitLead)
  | garble =>
    rcases loseApdu_cases { w with counters := w.counters.addMalformed } w.commitLead with he | hlt
    · exact .inl (hx.of_get?_eq (by rw [he]))
    · exact .inr (.inr hlt)
  | orphan => exact given (w.giveUpSlot_cases w.commitLead)
  | reclaim behind => exact .inl (hx.dropTrail h behind)
  | overrun front nonempty => exact (hx.evictTrail front nonempty).imp_right .inr
  | skip target _ empty => omega
  | deliver count =>
    by_cases hread : x ∈ w.commitTrail.run count
    · exact .inr (.inl hread)
    · exact .inl (hx.of_get?_eq (by rw [get?_deliver, if_neg hread]))
  | retain s =>
    refine .inl (hx.modify fun slot _ held => ?_)
    rw [Slot.retain, if_neg (by rw [held]; decide)]
    exact held
  | free s =>
    refine .inl (hx.modify fun slot _ held => ?_)
    rw [Slot.dropPayload, if_neg (by rw [held]; decide)]
    exact held
  | refuse | regroup | pass | passLost | report => exact .inl hx

theorem Moves.holds (hm : w.Moves notes w') (h : w.Sound) (defined : w.isDefined) (hx : w.Holds x) :
    w'.Holds x ∨ x ∈ w.commitTrail.run (Note.advance notes) ∨
      w.counters.losses < w'.counters.losses := by
  induction hm with
  | done => exact .inl hx
  | @next w w' w'' notes more first later ih =>
    have h' := first.sound h
    have hle := later.losses_le h'
    rw [Note.advance_append, SeqNum.run_add, List.mem_append]
    rcases first.holds h hx with hx | hx | hlt
    · rcases ih h' (first.keeps.isDefined defined) hx with hx | hx | hlt
      · exact .inl hx
      · rw [first.commitTrail_eq h defined] at hx
        exact .inr (.inl (.inr hx))
      · exact .inr (.inr (Nat.lt_of_le_of_lt (first.losses_le h) hlt))
    · exact .inr (.inl (.inl hx))
    · exact .inr (.inr (Nat.lt_of_lt_of_le hlt hle))

/-- The trail never moves back. -/
theorem place_add_le (w : Window) (x : SeqNum) (n : Nat) : w.place (x + n) ≤ w.place x + n := by
  have ht := w.trail.toNat_lt
  have hx := x.toNat_lt
  simp only [place, SeqNum.gap_eq, SeqNum.toNat_add]
  omega

theorem Move.place_commitTrail_le (hm : w.Move notes w') (h : w.Sound) :
    w'.place w'.commitTrail ≤ w.place w.commitTrail + Note.advance notes := by
  have still : ∀ {v : Window} {n : Nat}, v.trail = w.trail → v.commitTrail = w.commitTrail + n →
      v.place v.commitTrail ≤ w.place w.commitTrail + n := by
    intro v n ht hct
    rw [place, ht, hct]
    exact w.place_add_le w.commitTrail n
  cases hm.framed with
  | same frame quiet =>
    rw [quiet.advance]
    exact still (congrArg Frame.trail frame)
      ((congrArg Frame.commitTrail frame).trans (SeqNum.add_zero _).symm)
  | append slot quiet =>
    rw [quiet.advance]
    exact still (SlotRing.trail_append ..) (SeqNum.add_zero _).symm
  | define trail =>
    rw [show (w.define trail).place (w.define trail).commitTrail = 0 from SeqNum.gap_self trail]
    exact Nat.zero_le _
  | reclaim behind =>
    have hct := h.place_commitTrail_le
    obtain ⟨slot, slots, hpop⟩ := Sound.exists_popTrail? (w := w) (by omega)
    have hdrop : w.dropTrail = { w with slots } := by rw [dropTrail, hpop]
    have htrail : { w with slots }.trail = w.trail.next := (SlotRing.popTrail?_eq_some hpop).2.2.1
    have hnext := Sound.place_of_trail_next htrail behind
    rw [hdrop]
    change { w with slots }.place w.commitTrail ≤ _
    omega
  | overrun front nonempty =>
    obtain ⟨slot, slots, hpop⟩ := Sound.exists_popTrail? nonempty
    rw [Sound.evictTrail_of_front front hpop]
    exact Nat.le_trans (Nat.le_of_eq (SeqNum.gap_self slots.trail)) (Nat.zero_le _)
  | skip target _ empty ahead =>
    rw [h.skip_eq empty ahead]
    exact Nat.le_trans (Nat.le_of_eq (SeqNum.gap_self target)) (Nat.zero_le _)
  | passLost => exact still rfl rfl
  | deliver count =>
    have hframe := frame_deliver w count
    exact still (congrArg Frame.trail hframe) (congrArg Frame.commitTrail hframe)
  | regroup | pass | report => exact still rfl (SeqNum.add_zero _).symm

theorem Moves.place_commitTrail_le (hm : w.Moves notes w') (h : w.Sound) :
    w'.place w'.commitTrail ≤ w.place w.commitTrail + Note.advance notes := by
  induction hm with
  | done => exact Nat.le_add_right ..
  | next first _ ih =>
    have here := first.place_commitTrail_le h
    have later := ih (first.sound h)
    rw [Note.advance_append]
    omega

/-! ### Packets counted malformed -/

/-- Losses are counted, or else no packet is counted malformed. -/
def Clean (w w' : Window) : Prop :=
  w.counters.losses < w'.counters.losses ∨
    w'.counters.losses = w.counters.losses ∧ w'.counters.malformed = w.counters.malformed

namespace Clean

theorem refl (w : Window) : w.Clean w := .inr ⟨rfl, rfl⟩

theorem of_counters_eq (h : w'.counters = w.counters) : w.Clean w' := by
  rw [Clean, h]
  exact refl w

theorem of_addLosses {n : Nat} (h : w'.counters = w.counters.addLosses n) : w.Clean w' := by
  rw [Clean, h]
  cases n with
  | zero => exact refl w
  | succ n => exact .inl (Nat.lt_add_of_pos_right (Nat.succ_pos n))

theorem of_cases (h : w' = w ∨ w.counters.losses < w'.counters.losses) : w.Clean w' := by
  rcases h with rfl | hlt
  · exact refl w'
  · exact .inl hlt

theorem trans (h : w.Clean w') (h' : w'.Clean w'') : w.Clean w'' := by
  unfold Clean at *
  omega

end Clean

theorem clean_loseAll (numbers : List SeqNum) (w : Window) : w.Clean (numbers.foldl loseApdu w) := by
  induction numbers generalizing w with
  | nil => exact .refl w
  | cons s numbers ih => exact (Clean.of_cases (w.loseApdu_cases s)).trans (ih _)

/-- An APDU found malformed at the front is given up. -/
theorem clean_resolveStep (hstep : w.resolveStep? = some w') : w.Clean w' := by
  cases frontStep hstep with
  | single | whole | settled => exact .refl w
  | orphan => exact .of_cases (w.giveUpSlot_cases w.commitLead)
  | collapse => exact .of_cases (w.loseApdu_cases w.commitLead)
  | garble found held =>
    rcases loseApdu_cases { w with counters := w.counters.addMalformed } w.commitLead with he | hlt
    · obtain ⟨new, hnew, hlost⟩ := get?_loseApdu_self
        (w := { w with counters := w.counters.addMalformed }) found
      rw [he] at hnew
      obtain rfl := Option.some.inj (hnew.symm.trans found)
      rw [held] at hlost
      cases hlost
    · exact .inl hlt

theorem clean_resolve (w : Window) : w.Clean w.resolve :=
  resolveSteps_of_step .refl .trans clean_resolveStep _ w

theorem clean_makeRoom (w : Window) (last : SeqNum) : w.Clean (w.makeRoom last) := by
  obtain ⟨_, _, _, _, _, _, he⟩ := w.givesWay_makeRoom last
  exact .of_addLosses (congrArg Window.counters he)

theorem counters_addPlaceholders (w : Window) (stop : SeqNum) (now : Timestamp) :
    (w.addPlaceholders stop now).counters = w.counters := by
  obtain ⟨_, _, _, he⟩ := w.addPlaceholders_eq stop now
  rw [he]

theorem clean_extend (w : Window) (p : Packet) (now : Timestamp) : w.Clean (w.extend p now) := by
  have happend : ∀ (w : Window) (slot : Slot), (w.append slot).counters = w.counters :=
    fun _ _ => rfl
  refine (w.clean_makeRoom p.sequence).trans (.of_counters_eq ?_)
  rw [extend, happend, counters_addPlaceholders]

theorem clean_acceptData {p : Packet} (wellFormed : w.isMalformed p = false)
    (source : Option RepairSource) (now : Timestamp) : w.Clean (w.acceptData p source now).1 := by
  have hplaced : w.Clean (w.ensureDefined p.sequence) := by
    unfold ensureDefined
    split <;> exact .refl w
  have htakes := takes_acceptData wellFormed source now
  generalize w.acceptData p source now = answer at htakes
  generalize w.ensureDefined p.sequence = w' at *
  cases htakes with
  | behind | lost => exact hplaced
  | duplicate => exact hplaced.trans (.inr ⟨rfl, rfl⟩)
  | ahead => exact hplaced.trans ((w'.clean_extend p now).trans (clean_resolve _))
  | missing => exact hplaced.trans (.trans (.inr (losses_fillSlot ..)) (clean_resolve _))

theorem clean_acceptNcf (w : Window) (s : SeqNum) (sent now : Timestamp) :
    w.Clean (w.acceptNcf s sent now).1 := by
  rcases w.acceptNcf_cases s sent now with ⟨he, -⟩ | ⟨slot, timer, -, -, -, -, he⟩ <;> rw [he]
  · exact .refl w
  · exact .refl w

theorem counters_endTimers (timer : Timer) (now : Timestamp) (due : List SeqNum) (w : Window) :
    (endTimers timer now due w).1.counters = w.counters := by
  induction due generalizing w with
  | nil => rfl
  | cons s due ih =>
    rw [endTimers]
    split
    · exact ih w
    · exact ih (w.modify s _)

theorem counters_endDue (w : Window) (now : Timestamp) (timer : Timer) :
    (w.endDue now timer).1.counters = w.counters :=
  counters_endTimers timer now (w.queues.popDue timer now (w.expiryIn timer)).1
    { w with queues := (w.queues.popDue timer now (w.expiryIn timer)).2 }

theorem clean_sweepAll (w : Window) (now : Timestamp) : w.Clean (w.sweepAll now).1 := by
  have hended : (w.endAllDue now).1.counters = w.counters :=
    endAllDue_phases (P := fun v _ => v.counters = w.counters) now rfl
      fun v _ timer h => (v.counters_endDue now timer).trans h
  rcases hend : w.endAllDue now with ⟨w', ended⟩
  rw [hend] at hended
  simp only [sweepAll, hend]
  split
  · exact .refl w
  · exact (Clean.of_counters_eq hended).trans ((clean_loseAll _ w').trans (clean_resolve _))

theorem losses_takeReady (room length : Nat) (w : Window) :
    (takeReady room length w).1.counters.losses = w.counters.losses ∧
      (takeReady room length w).1.counters.malformed = w.counters.malformed := by
  have draws := draws_takeReady room length w
  generalize takeReady room length w = taken at draws ⊢
  induction draws with
  | done | cut => exact ⟨rfl, rfl⟩
  | pass _ _ _ _ ih => exact ih
  | deliver _ _ _ _ _ ih => exact ih

theorem clean_readReady (w : Window) (count : Nat) : w.Clean (w.readReady count).1 :=
  .trans (.inr (losses_takeReady count (w.commitTrail.gap w.commitLead)
    { w with unreportedLosses := 0 })) (clean_resolve _)

theorem counters_releaseUpTo (limit : Nat) (w : Window) :
    (releaseUpTo limit w).1.counters = w.counters := by
  have releases := releases_releaseUpTo limit w
  generalize (releaseUpTo limit w).1 = w' at releases ⊢
  induction releases with
  | done | hold => rfl
  | drop before unneeded later ih => exact ih.trans (counters_dropTrail _)

theorem counters_freeDelivered (w : Window) : w.freeDelivered.counters = w.counters := by
  unfold freeDelivered
  generalize w.trail.upTo w.commitTrail = numbers
  induction numbers generalizing w with
  | nil => rfl
  | cons s numbers ih => exact ih (w.freeSlot s)

/-! ### Histories -/

/-- A window that got its place at `start` and did nothing so far. -/
structure Placed (w : Window) (start : SeqNum) : Prop where
  sound : w.Sound
  live : w.isGone = false
  defined : w.isDefined
  empty : w.slots.size = 0
  commitTrail : w.commitTrail = start
  unreported : w.unreportedLosses = 0
  losses : w.counters.losses = 0
  malformed : w.counters.malformed = 0

/-- In the course of a history that began at `start` the reader passed what was delivered to it and
nothing else, and there is nothing else to tell it. -/
structure Lossless (w : Window) (start : SeqNum) (ops : List Op) : Prop where
  defined : (w.run ops).isDefined
  commitTrail : (w.run ops).commitTrail = start + spanned (w.delivered ops)
  place_le : (w.run ops).place (w.run ops).commitTrail ≤ spanned (w.delivered ops)
  account : ∃ spans, Account start 0 (spanned (w.delivered ops)) spans [] ∧
    spans.map Prod.snd = w.delivered ops
  told : w.told ops = 0
  unreported : (w.run ops).unreportedLosses = 0
  lostAhead : (w.run ops).lostAhead = 0

theorem placed_define (tsi : Tsi) (config : ValidConfig) (start : SeqNum) :
    ((create tsi config).define start).Placed start where
  sound := (sound_create tsi config).define start
  live := rfl
  defined := rfl
  empty := rfl
  commitTrail := rfl
  unreported := rfl
  losses := rfl
  malformed := rfl

/-- A step in which nothing is lost brings the reader forward over what it delivers. -/
theorem Lossless.concat {start : SeqNum} {ops : List Op} {op : Op} (h : w.Lossless start ops)
    (hsound : (w.run ops).Sound) (hmoves : (w.run ops).Moves notes (w.run (ops ++ [op])))
    (htells : (w.run ops).Tells op ((w.run ops).step op).2 notes)
    (unharmed : (w.run ops).counters.losses = (w.run (ops ++ [op])).counters.losses) :
    w.Lossless start (ops ++ [op]) ∧
      spanned (w.delivered (ops ++ [op])) = spanned (w.delivered ops) + Note.advance notes := by
  -- A number that was passed or left would have been counted.
  have hcounted := hmoves.losses_eq hsound
  have hahead := h.lostAhead
  have hzero := h.unreported
  have hunreported := hmoves.unreported_eq hsound (by unfold maxReported; omega)
  obtain ⟨spans, haccount, hspans⟩ := h.account
  obtain ⟨spans', lost', haccount', hspans', hlost'⟩ :=
    hmoves.account hsound h.defined h.commitTrail
  obtain rfl : lost' = [] := List.eq_nil_of_length_eq_zero (by omega)
  have hdelivered : w.delivered (ops ++ [op]) = w.delivered ops ++ Note.messages notes := by
    rw [delivered_concat, htells.messages]
  have hadvance : Note.advance notes = spanned (Note.messages notes) := by
    unfold Note.advance spanned
    omega
  have hspanned : spanned (w.delivered (ops ++ [op])) =
      spanned (w.delivered ops) + Note.advance notes := by
    rw [hdelivered, spanned_append, hadvance]
  have hplace := hmoves.place_commitTrail_le hsound
  have hsofar := h.place_le
  refine ⟨⟨hmoves.keeps.isDefined h.defined, ?_, by omega, ⟨spans ++ spans', ?_, ?_⟩, ?_, by omega,
    by omega⟩, hspanned⟩
  · rw [hmoves.commitTrail_eq hsound h.defined, h.commitTrail, SeqNum.add_add, hspanned]
  · rw [hspanned]
    exact haccount.append haccount'
  · rw [List.map_append, hspans, hspans', hdelivered]
  · rw [told_concat, h.told, ← htells.told]
    omega

theorem Placed.lossless_nil {start : SeqNum} (h : w.Placed start) : w.Lossless start [] := by
  have hplace := h.sound.place_commitTrail_le
  rw [h.empty] at hplace
  exact ⟨h.defined, h.commitTrail.trans (SeqNum.add_zero _).symm, hplace, ⟨[], .nil start 0, rfl⟩,
    rfl, h.unreported, lostAhead_of_empty h.sound h.empty⟩

/-- Each message begins where those before it end. -/
theorem Lossless.first {start : SeqNum} {ops : List Op} (h : w.Lossless start ops) {i : Nat}
    {m : Message} (hi : (w.delivered ops)[i]? = some m) :
    m.first = start + spanned ((w.delivered ops).take i) ∧ 0 < m.packets := by
  obtain ⟨spans, haccount, hspans⟩ := h.account
  rw [← hspans, List.getElem?_map, Option.map_eq_some_iff] at hi
  obtain ⟨span, hspan, rfl⟩ := hi
  have hmem := List.mem_of_getElem? hspan
  refine ⟨?_, (haccount.bounds span hmem).2.1⟩
  rw [haccount.first span hmem, haccount.placed i span hspan, ← hspans, List.map_take]
  simp

end ReliableMulticast.Window
