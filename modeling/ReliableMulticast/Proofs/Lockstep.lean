import ReliableMulticast.Proofs.Intake
import ReliableMulticast.Proofs.Ledger
import ReliableMulticast.Proofs.Mirror

/-!
# Windows in lockstep

Windows that mirror each other may differ in the slots behind the reader, and nothing else than
these is taken away when slots are reclaimed, or when the lead needs room and there are enough of
them. So a window that makes room does so in two parts: what it drops behind the reader leaves a
mirror of it, and what it drops from there on is the same in every mirror (`Mirrors.makeRoom`).
-/

namespace ReliableMulticast

theorem SeqNum.gap_lt_of_next {a b c : SeqNum} (pos : 0 < a.gap c)
    (h : a.next.gap b < a.next.gap c) : a.gap b < a.gap c := by
  have ha := a.toNat_lt
  have hb := b.toNat_lt
  have hc := c.toNat_lt
  simp only [next, gap_eq, toNat_add] at *
  omega

theorem SeqNum.gap_lt_of_lt_next {a b c : SeqNum} (h : a.gap b < a.gap c.next) (ne : b ≠ c) :
    a.gap b < a.gap c := by
  have hone : a.gap c + 1 = a.gap c.next := gap_add_one (by omega)
  refine Nat.lt_of_le_of_ne (by omega) fun he => ne ?_
  rw [← a.add_gap b, he, add_gap]

namespace Window

variable {w w' : Window} {s x : SeqNum}

/-! ### Slots behind the reader -/

theorem Sound.mirrors_dropTrail (h : w.Sound) (behind : 0 < w.place w.commitTrail) :
    w.Mirrors w.dropTrail := by
  have hct := h.place_commitTrail_le
  obtain ⟨slot, slots, hpop⟩ := Sound.exists_popTrail? (w := w) (by omega)
  obtain ⟨-, hcap, -, -, hget⟩ := SlotRing.popTrail?_eq_some hpop
  have hdrop : w.dropTrail = { w with slots } := by rw [dropTrail, hpop]
  rw [hdrop]
  refine ⟨?_, rfl, rfl, rfl, SlotRing.next_of_popTrail? hpop, fun x ahead => ?_⟩
  · change { w.frame with trail := slots.trail, size := slots.size, capacity := slots.capacity } = _
    rw [hcap]
    rfl
  · refine (hget x).trans (if_neg ?_)
    rintro rfl
    have hplace := (h.ahead_iff.1 ahead).1
    rw [show w.place w.slots.trail = 0 from w.place_trail] at hplace
    omega

/-- A slot behind the reader runs no timer, so it leaves no trace when it makes room. -/
theorem Sound.evictTrail_of_behind (h : w.Sound) (behind : 0 < w.place w.commitTrail) :
    w.evictTrail = w.dropTrail := by
  have hct := h.place_commitTrail_le
  have htrail := w.place_trail
  obtain ⟨slot, slots, hpop⟩ := Sound.exists_popTrail? (w := w) (by omega)
  obtain ⟨found, -⟩ := SlotRing.popTrail?_eq_some hpop
  have hbefore : w.trail.Before w.commitTrail := (h.before_iff (by omega) hct).2 (by omega)
  have idle : slot.timer = none := h.timer_eq_none found fun ahead => by
    have hplace := (h.ahead_iff.1 ahead).1
    rw [show w.place w.slots.trail = 0 from htrail] at hplace
    omega
  rw [dropTrail, evictTrail, hpop]
  simp only [if_pos hbefore, TimerQueues.unqueue, idle]

/-- A confirmation for a number behind the reader changes nothing. -/
theorem Sound.acceptNcf_of_behind (h : w.Sound) (behind : ¬ w.Ahead s) (sent now : Timestamp) :
    (w.acceptNcf s sent now).1 = w := by
  rcases w.acceptNcf_cases s sent now with ⟨he, -⟩ | ⟨slot, timer, rfl, found, runs, -, -⟩
  · exact he
  · cases (h.timer_eq_none found behind).symm.trans runs

theorem Sound.place_dropTrail (h : w.Sound) (behind : 0 < w.place w.commitTrail) :
    w.dropTrail.place w.dropTrail.commitTrail + 1 = w.place w.commitTrail := by
  have hct := h.place_commitTrail_le
  obtain ⟨slot, slots, hpop⟩ := Sound.exists_popTrail? (w := w) (by omega)
  obtain ⟨-, -, htrail, -⟩ := SlotRing.popTrail?_eq_some hpop
  have hdrop : w.dropTrail = { w with slots } := by rw [dropTrail, hpop]
  rw [hdrop]
  exact Sound.place_of_trail_next (show { w with slots }.trail = w.trail.next from htrail) behind

/-- Room that is made behind the reader. -/
theorem Sound.evict_of_behind {n : Nat} (h : w.Sound) (behind : n ≤ w.place w.commitTrail) :
    w.Mirrors (evict n w) ∧ (evict n w).Sound ∧
      (evict n w).place (evict n w).commitTrail + n = w.place w.commitTrail := by
  induction n generalizing w with
  | zero => exact ⟨.refl w, h, rfl⟩
  | succ n ih =>
    have hplace := h.place_dropTrail (by omega)
    obtain ⟨hmirror, hsound, hrest⟩ := ih (h.reclaim (by omega)) (by omega)
    rw [evict, h.evictTrail_of_behind (by omega)]
    exact ⟨(h.mirrors_dropTrail (by omega)).trans hmirror, hsound, by omega⟩

theorem evict_add (m n : Nat) (w : Window) : evict (m + n) w = evict n (evict m w) := by
  induction m generalizing w with
  | zero => rw [Nat.zero_add, evict]
  | succ m ih =>
    rw [Nat.succ_add, evict, evict]
    exact ih w.evictTrail

theorem Sound.mirrors_releaseUpTo (limit : Nat) (h : w.Sound) (single : w.groupSize ≤ 1) :
    w.Mirrors (releaseUpTo limit w).1 := by
  have releases := releases_releaseUpTo limit w
  generalize (releaseUpTo limit w).1 = w' at releases ⊢
  induction releases with
  | done => exact .refl _
  | hold before retained =>
    rw [isRetained, if_pos single] at retained
    cases retained
  | drop before unneeded later ih =>
    have behind := h.trail_before_iff.1 before
    have hmirror := h.mirrors_dropTrail behind
    exact hmirror.trans (ih (h.reclaim behind) (hmirror.groupSize.trans_le single))

theorem Sound.mirrors_freeDelivered (h : w.Sound) : w.Mirrors w.freeDelivered := by
  have hframe : ∀ (v : Window) (s : SeqNum), (v.freeSlot s).frame = v.frame := frame_freeSlot
  have behind : ∀ s ∈ w.trail.upTo w.commitTrail, ¬ w.Ahead s := by
    intro s hs ahead
    have := (h.ahead_iff.1 ahead).1
    have := h.behind_of_mem s hs
    omega
  unfold freeDelivered
  generalize w.trail.upTo w.commitTrail = numbers at behind
  clear h
  induction numbers generalizing w with
  | nil => exact .refl w
  | cons s numbers ih =>
    have hs := behind s (List.mem_cons_self ..)
    have freed : w.Mirrors (w.freeSlot s) :=
      (Mirrors.refl w).change rfl (hframe w s) rfl rfl rfl fun x ahead => by
        unfold freeSlot
        rw [get?_modify, if_neg (by rintro rfl; exact hs ahead)]
    exact freed.trans (ih fun x hx ahead =>
      behind x (List.mem_cons_of_mem s hx) (freed.ahead_iff.1 ahead))

namespace Mirrors

/-! ### Making room -/

theorem capacity (h : w.Mirrors w') : w'.capacity = w.capacity := congrArg Frame.capacity h.frame

/-- Beyond the reader the windows have as many slots. -/
theorem size_sub (h : w.Mirrors w') (hs : w.Sound) (hs' : w'.Sound) :
    w'.slots.size - w'.place w'.commitTrail = w.slots.size - w.place w.commitTrail := by
  rw [← hs.gap_next, ← hs'.gap_next, h.commitTrail, h.next]

/-- Windows with nothing behind their readers give the same slot away. -/
theorem evictTrail_of_front (h : w.Mirrors w') (hs : w.Sound) (hs' : w'.Sound)
    (front : w.place w.commitTrail = 0) (front' : w'.place w'.commitTrail = 0)
    (nonempty : 0 < w.slots.size) :
    w.evictTrail.Mirrors w'.evictTrail ∧ w.evictTrail.place w.evictTrail.commitTrail = 0 ∧
      w'.evictTrail.place w'.evictTrail.commitTrail = 0 := by
  have hsize := h.size_sub hs hs'
  have htrail : w'.slots.trail = w.slots.trail := by
    have here : w.trail = w.commitTrail := SeqNum.gap_eq_zero_iff.1 front
    have here' : w'.trail = w'.commitTrail := SeqNum.gap_eq_zero_iff.1 front'
    exact here'.trans (h.commitTrail.trans here.symm)
  obtain ⟨slot, slots, hpop⟩ := Sound.exists_popTrail? nonempty
  obtain ⟨slot', slots', hpop'⟩ := Sound.exists_popTrail? (w := w') (by omega)
  have hnext := SlotRing.next_of_popTrail? hpop
  have hnext' := SlotRing.next_of_popTrail? hpop'
  obtain ⟨found, hcap, hmoved, hsize₁, hget⟩ := SlotRing.popTrail?_eq_some hpop
  obtain ⟨found', hcap', hmoved', -, hget'⟩ := SlotRing.popTrail?_eq_some hpop'
  have first : w.Ahead w.slots.trail :=
    hs.ahead_iff.2 ⟨by rw [front]; exact Nat.zero_le _,
      (Nat.le_of_eq w.place_trail).trans_lt nonempty⟩
  obtain rfl : slot' = slot := by
    have same := h.slots _ first
    rw [found, ← htrail, found'] at same
    exact Option.some.inj same
  have hslots : slots'.trail = slots.trail := by rw [hmoved, hmoved', htrail]
  rw [Sound.evictTrail_of_front front hpop, Sound.evictTrail_of_front front' hpop', hslots]
  refine ⟨⟨?_, h.senderTrail, ?_, ?_, ?_, fun x ahead => ?_⟩, SeqNum.gap_self slots.trail, ?_⟩
  · change { w'.frame with
        commitTrail := slots.trail, commitLead := slots.trail
        unreportedLosses := min (w'.unreportedLosses + 1) maxReported
        trail := slots'.trail, size := slots'.size, capacity := slots'.capacity } = _
    rw [h.frame, h.unreportedLosses, hcap',
      show w'.slots.capacity = w.slots.capacity from h.capacity,
      ← hcap]
    rfl
  · exact congrArg (· + if slot'.state = .lost then 0 else 1) h.losses
  · exact congrArg (·.unqueue slot') h.queues
  · exact hnext'.trans (h.next.trans hnext.symm)
  · change slots'.get? x = slots.get? x
    rw [hget, hget', htrail]
    by_cases hx : x = w.slots.trail
    · rw [if_pos hx, if_pos hx]
    · rw [if_neg hx, if_neg hx]
      have here : w.slots.trail = w.commitTrail := SeqNum.gap_eq_zero_iff.1 front
      have hgap := hs.gap_next
      change slots.trail.gap x < slots.trail.gap slots.next at ahead
      rw [hmoved, here, hnext] at ahead
      exact h.slots x (SeqNum.gap_lt_of_next (show 0 < w.commitTrail.gap w.next by omega) ahead)
  · change slots'.trail.gap slots.trail = 0
    rw [hslots, SeqNum.gap_self]

theorem evict_of_front {n : Nat} (h : w.Mirrors w') (hs : w.Sound) (hs' : w'.Sound)
    (front : w.place w.commitTrail = 0) (front' : w'.place w'.commitTrail = 0)
    (inside : n ≤ w.slots.size) : (Window.evict n w).Mirrors (Window.evict n w') := by
  induction n generalizing w w' with
  | zero => exact h
  | succ n ih =>
    have hsize := h.size_sub hs hs'
    obtain ⟨_, -, hmoves, -, hless⟩ := moves_evictTrail hs (by omega)
    obtain ⟨_, -, hmoves', -, -⟩ := moves_evictTrail hs' (by omega)
    obtain ⟨first, hfront, hfront'⟩ := h.evictTrail_of_front hs hs' front front' (by omega)
    exact ih first (hmoves.sound hs) (hmoves'.sound hs') hfront hfront' (by omega)

/-- Windows that drop as many slots from their readers on still mirror each other. -/
theorem evict {n n' : Nat} (h : w.Mirrors w') (hs : w.Sound) (hs' : w'.Sound)
    (inside : n ≤ w.slots.size)
    (same : n' - w'.place w'.commitTrail = n - w.place w.commitTrail) :
    (Window.evict n w).Mirrors (Window.evict n' w') := by
  -- What lies behind a reader leaves first.
  have behind : ∀ {v : Window} (m : Nat), v.Sound → ∃ u, v.Mirrors u ∧ u.Sound ∧
      Window.evict m v = Window.evict (m - v.place v.commitTrail) u ∧
      (0 < m - v.place v.commitTrail → u.place u.commitTrail = 0) := by
    intro v m hv
    obtain ⟨hmirror, hsound, hplace⟩ :=
      hv.evict_of_behind (Nat.min_le_right m (v.place v.commitTrail))
    refine ⟨_, hmirror, hsound, ?_, fun _ => by omega⟩
    rw [← evict_add]
    congr 1
    omega
  obtain ⟨v, hv, hsound, he, hfront⟩ := behind n hs
  obtain ⟨v', hv', hsound', he', hfront'⟩ := behind n' hs'
  have hmirror := hv.symm.trans (h.trans hv')
  rw [he, he', same]
  rcases Nat.eq_zero_or_pos (n - w.place w.commitTrail) with hzero | hpos
  · rw [hzero]
    exact hmirror
  · have hsize := hv.size_sub hs hsound
    have := hfront hpos
    exact hmirror.evict_of_front hsound hsound' (hfront hpos) (hfront' (same ▸ hpos)) (by omega)

theorem skip (h : w.Mirrors w') (hs : w.Sound) (hs' : w'.Sound) (empty : w.slots.size = 0)
    (empty' : w'.slots.size = 0) {target : SeqNum} (ahead : w.trail.Before target) :
    (w.skipTo target).clampCommit.Mirrors (w'.skipTo target).clampCommit := by
  have hempty : ∀ {v : Window}, v.slots.size = 0 → v.next = v.trail := fun hv => by
    rw [Window.next, SlotRing.next, hv, SeqNum.add_zero]
    rfl
  have htrail : w'.trail = w.trail := by rw [← hempty empty, ← hempty empty', h.next]
  rw [hs.skip_eq empty ahead, hs'.skip_eq empty' (htrail ▸ ahead), htrail, h.unreportedLosses]
  refine ⟨?_, h.senderTrail, ?_, h.queues, rfl, fun x _ => ?_⟩
  · change { w'.frame with
        commitTrail := target, commitLead := target
        unreportedLosses := min (w.unreportedLosses + w.trail.gap target) maxReported
        trail := target, size := 0 } = _
    rw [h.frame]
    rfl
  · exact congrArg (· + w.trail.gap target) h.losses
  · exact (SlotRing.get?_reset ..).trans (SlotRing.get?_reset ..).symm

/-- Windows that mirror each other make the same room. -/
theorem makeRoom (h : w.Mirrors w') (hs : w.Sound) (hs' : w'.Sound) {last : SeqNum}
    (hlast : w.next.gap last < 2147483648) : (w.makeRoom last).Mirrors (w'.makeRoom last) := by
  have hsize := h.size_sub hs hs'
  have hct := hs.place_commitTrail_le
  have hct' := hs'.place_commitTrail_le
  have hcap := h.capacity
  have hfits : w.slots.size ≤ w.capacity := w.slots.size_le
  have hfits' : w'.slots.size ≤ w'.capacity := w'.slots.size_le
  have hall := h.evict hs hs' (Nat.le_refl _) hsize
  obtain ⟨_, -, hmoves, -, -⟩ := moves_evict w.slots.size hs (Nat.le_refl _)
  obtain ⟨_, -, hmoves', -, -⟩ := moves_evict w'.slots.size hs' (Nat.le_refl _)
  have hroom := makeRoom_cases hs hlast
  have hroom' := makeRoom_cases hs' (h.next ▸ hlast)
  rw [h.next] at hroom'
  rcases hroom with ⟨hle, he⟩ | ⟨target, hback, hgap, hempty, hahead, he⟩
  · rcases hroom' with ⟨hle', he'⟩ | ⟨_, _, hgap', -, hahead', -⟩
    · rw [he, he']
      exact h.evict hs hs' hle (by omega)
    · have := (SeqNum.before_iff.1 hahead').1
      omega
  · rcases hroom' with ⟨hle', -⟩ | ⟨target', hback', -, hempty', -, he'⟩
    · have := (SeqNum.before_iff.1 hahead).1
      omega
    · obtain rfl : target' = target := by
        have hsum := (target'.add_gap last).trans (target.add_gap last).symm
        rw [hback, hback', hcap] at hsum
        exact (SeqNum.eq_add_sub hsum (Nat.le_refl _)).trans (by rw [Nat.sub_self, SeqNum.add_zero])
      rw [he, he']
      exact hall.skip (hmoves.sound hs) (hmoves'.sound hs') hempty hempty' hahead

/-! ### Filling the room -/

/-- Both windows take the slot of the next number in. -/
theorem append (h : w.Mirrors w') {slot : Slot} (next : slot.sequence = w.next)
    (room : w.slots.size < w.capacity) (room' : w'.slots.size < w'.capacity) :
    (w.append slot).Mirrors (w'.append slot) := by
  have next' : slot.sequence = w'.next := next.trans h.next.symm
  obtain ⟨hnext, hsize, hcap⟩ := places_append next room
  obtain ⟨hnext', hsize', hcap'⟩ := places_append next' room'
  refine ⟨?_, h.senderTrail, h.losses, h.queues, by rw [hnext, hnext', h.next], fun x ahead => ?_⟩
  · change { w'.frame with
        fault := (w'.append slot).fault, trail := (w'.append slot).trail
        size := (w'.append slot).slots.size, capacity := (w'.append slot).capacity } = _
    rw [h.frame, hcap', h.capacity, ← hcap]
    rfl
  · rw [Sound.get?_append next room, Sound.get?_append next' room', h.next]
    by_cases hx : x = w.next
    · rw [if_pos hx, if_pos hx]
    · rw [if_neg hx, if_neg hx]
      rw [Ahead, hnext] at ahead
      exact h.slots x (SeqNum.gap_lt_of_lt_next ahead hx)

theorem foldl_addPlaceholder {n : Nat} (h : w.Mirrors w') (now : Timestamp)
    (room : w.slots.size + n ≤ w.capacity) (room' : w'.slots.size + n ≤ w'.capacity) :
    ((w.next.run n).foldl (addPlaceholder now) w).Mirrors
      ((w.next.run n).foldl (addPlaceholder now) w') := by
  induction n generalizing w w' with
  | zero => exact h
  | succ n ih =>
    obtain ⟨hnext, hsize, hcap⟩ : (addPlaceholder now w w.next).next = w.next.next ∧
        (addPlaceholder now w w.next).slots.size = w.slots.size + 1 ∧
        (addPlaceholder now w w.next).capacity = w.capacity := places_append rfl (by omega)
    obtain ⟨-, hsize', hcap'⟩ : (addPlaceholder now w' w.next).next = w'.next.next ∧
        (addPlaceholder now w' w.next).slots.size = w'.slots.size + 1 ∧
        (addPlaceholder now w' w.next).capacity = w'.capacity :=
      places_append h.next.symm (by omega)
    have first : (addPlaceholder now w w.next).Mirrors (addPlaceholder now w' w.next) := by
      unfold addPlaceholder
      rw [h.config]
      exact h.append rfl (by omega) (by omega)
    have later := ih first (by omega) (by omega)
    rwa [hnext] at later

theorem addPlaceholders (h : w.Mirrors w') (stop : SeqNum) (now : Timestamp)
    (room : w.slots.size + w.next.gap stop ≤ w.capacity)
    (room' : w'.slots.size + w.next.gap stop ≤ w'.capacity) :
    (w.addPlaceholders stop now).Mirrors (w'.addPlaceholders stop now) := by
  have hmax : w.capacity ≤ 2147483648 := w.slots.capacity_le
  unfold Window.addPlaceholders
  rw [h.next, h.queues, SeqNum.upTo_eq_run (by omega)]
  exact (h.foldl_addPlaceholder now room room').queued _

theorem advanceLead (h : w.Mirrors w') (hs : w.Sound) (hs' : w'.Sound) (defined : w.isDefined)
    {lead : SeqNum} (hlead : w.next.gap lead < 2147483648) (now : Timestamp) :
    (w.advanceLead lead now).Mirrors (w'.advanceLead lead now) := by
  have hmade := h.makeRoom hs hs' hlead
  have room := room_makeRoom hs defined hlead
  have room' := room_makeRoom hs' (h.isDefined.trans defined) (h.next ▸ hlead)
  rw [hmade.next] at room'
  exact hmade.addPlaceholders lead.next now room room'

/-- Both windows take a packet ahead of the lead in. -/
theorem extend (h : w.Mirrors w') (hs : w.Sound) (hs' : w'.Sound) (defined : w.isDefined)
    {p : Packet} (ahead : w.next.gap p.sequence < 2147483648) (now : Timestamp) :
    (w.extend p now).Mirrors (w'.extend p now) := by
  have hmade := h.makeRoom hs hs' ahead
  have defined' := h.isDefined.trans defined
  obtain ⟨_, -, hmoves, hroom⟩ := makeRoom_spec hs defined ahead
  obtain ⟨_, -, hmoves', hroom'⟩ := makeRoom_spec hs' defined' (h.next ▸ ahead)
  have hcap := hmoves.capacity_eq hs
  have hcap' := hmoves'.capacity_eq hs'
  rw [hmade.next] at hroom'
  obtain ⟨hfill, hnext, hsize⟩ := addPlaceholders_spec (hmoves.sound hs)
    (hmoves.keeps.isDefined defined) p.sequence now (by omega)
  obtain ⟨hfill', -, hsize'⟩ := addPlaceholders_spec (hmoves'.sound hs')
    (hmoves'.keeps.isDefined defined') p.sequence now (by rw [hmade.next]; omega)
  have hfilled := hfill.capacity_eq (hmoves.sound hs)
  have hfilled' := hfill'.capacity_eq (hmoves'.sound hs')
  rw [hmade.next] at hsize'
  exact (hmade.addPlaceholders p.sequence now (by omega) (by omega)).append hnext.symm (by omega)
    (by omega)

/-! ### Data packets -/

theorem define (h : w.Mirrors w') (s : SeqNum) : (w.define s).Mirrors (w'.define s) := by
  refine ⟨?_, rfl, h.losses, rfl, rfl, fun x _ => ?_⟩
  · change { w'.frame with
        commitTrail := s, commitLead := s, isDefined := true, trail := s, size := 0 } = _
    rw [h.frame]
    rfl
  · exact (SlotRing.get?_reset ..).trans (SlotRing.get?_reset ..).symm

theorem ensureDefined (h : w.Mirrors w') (s : SeqNum) :
    (w.ensureDefined s).Mirrors (w'.ensureDefined s) := by
  unfold Window.ensureDefined
  rw [h.isDefined]
  split
  · exact h
  · exact h.define s

theorem fillSlot (h : w.Mirrors w') (slot : Slot) (p : Packet) (source : Option RepairSource)
    (now : Timestamp) : (w.fillSlot slot p source now).Mirrors (w'.fillSlot slot p source now) := by
  have hmodify := fun (v : Window) => get?_modify v p.sequence
  refine h.change (frame_modify w p.sequence _) (frame_modify w' p.sequence _) h.senderTrail ?_
    (congrArg (·.unqueue slot) h.queues) fun x ahead => ?_
  · rw [(w.losses_fillSlot slot p source now).1, (w'.losses_fillSlot slot p source now).1, h.losses]
  · exact (hmodify w' x _).trans ((h.slots x ahead ▸ rfl : _ = _).trans (hmodify w x _).symm)

end Mirrors

variable {p : Packet} {source : Option RepairSource} {now : Timestamp}
  {answer answer' : Window × Receipt}

/-- A packet ahead of the lead extends the window. -/
theorem Takes.eq_of_after (h : w.Takes p source now answer) (after : p.sequence.After w.lead)
    (near : ¬ p.sequence.Before w.trail) : answer = (w.extend p now).stored p .advancedWindow := by
  have outside : ∀ {slot : Slot}, w.slots.get? p.sequence ≠ some slot := fun found =>
    (SlotRing.isSome_get?_iff.1 (by rw [found]; rfl) : w.slots.Contains p.sequence).2 after
  cases h with
  | behind before => exact absurd before near
  | ahead => rfl
  | lost found | duplicate found | missing found => exact absurd found outside

/-- What becomes of a packet that has a slot is decided by the slot. -/
theorem Takes.eq_of_found (h : w.Takes p source now answer) {slot : Slot}
    (found : w.slots.get? p.sequence = some slot) :
    answer.1 =
      if slot.state = .lost then w
      else if slot.state.hasData then { w with counters := w.counters.addDuplicate }
      else (w.fillSlot slot p source now).resolve := by
  have inside : w.slots.Contains p.sequence := SlotRing.isSome_get?_iff.1 (by rw [found]; rfl)
  have only : ∀ {other : Slot}, w.slots.get? p.sequence = some other → slot = other :=
    fun hother => Option.some.inj (found.symm.trans hother)
  cases h with
  | behind before => exact absurd before inside.1
  | ahead after => exact absurd after inside.2
  | lost hother lost =>
    obtain rfl := only hother
    rw [if_pos lost]
  | duplicate hother held =>
    obtain rfl := only hother
    rw [if_neg (SlotState.hasData_iff.1 held).1, if_pos held]
  | missing hother pending =>
    obtain rfl := only hother
    rw [if_neg (SlotState.ne_lost pending), SlotState.hasData_eq_false pending]
    rfl

/-- A packet behind the reader is counted at most. -/
theorem Takes.mirrors_of_behind (h : w.Takes p source now answer) (hs : w.Sound)
    (within : ¬ p.sequence.After w.lead) (behind : ¬ w.Ahead p.sequence) : w.Mirrors answer.1 := by
  cases h with
  | behind | lost => exact .refl w
  | duplicate => exact (Mirrors.refl w).change rfl rfl rfl rfl rfl fun _ _ => rfl
  | ahead after => exact absurd after within
  | missing found pending => exact absurd (hs.ahead_of_pending found pending) behind

namespace Mirrors

theorem takes (h : w.Mirrors w') (hs : w.Sound) (hs' : w'.Sound) (defined : w.isDefined)
    (near : p.sequence.After w.lead → ¬ p.sequence.Before w.trail)
    (near' : p.sequence.After w'.lead → ¬ p.sequence.Before w'.trail)
    (taken : w.Takes p source now answer) (taken' : w'.Takes p source now answer') :
    answer.1.Mirrors answer'.1 := by
  have hlead : w'.lead = w.lead := congrArg SeqNum.prev h.next
  by_cases after : p.sequence.After w.lead
  · have after' : p.sequence.After w'.lead := hlead ▸ after
    have ahead := after_lead_iff.1 after
    have defined' := h.isDefined.trans defined
    rw [taken.eq_of_after after (near after), taken'.eq_of_after after' (near' after')]
    obtain ⟨-, _, -, hmoves⟩ := extend_spec hs defined ahead now
    obtain ⟨-, _, -, hmoves'⟩ := extend_spec hs' defined' (h.next ▸ ahead) now
    exact (h.extend hs hs' defined ahead now).resolve (hmoves.sound hs) (hmoves'.sound hs')
  by_cases ahead : w.Ahead p.sequence
  · obtain ⟨slot, found⟩ := SlotRing.exists_get? (contains_iff_place.2 (hs.ahead_iff.1 ahead).2)
    have found' := (h.slots _ ahead).trans found
    rw [taken.eq_of_found found, taken'.eq_of_found found']
    split
    · exact h
    next alive =>
      split
      · exact h.change rfl rfl h.senderTrail h.losses h.queues h.slots
      next missing =>
        have pending := SlotState.repairPending_of alive missing
        exact (h.fillSlot slot p source now).resolve (hs.fill source now found pending)
          (hs'.fill source now found' pending)
  · -- Behind the reader one window may know a duplicate where the other knows nothing.
    have hleft := taken.mirrors_of_behind hs after ahead
    have hright := taken'.mirrors_of_behind hs' (hlead ▸ after) (mt h.ahead_iff.1 ahead)
    exact hleft.symm.trans (h.trans hright)

/-- A packet that neither window refuses does the same to both, if numbers ahead of the lead are not
behind the trail at the same time. -/
theorem acceptData (h : w.Mirrors w') (hs : w.Sound) (hs' : w'.Sound)
    (malformed : w'.isMalformed p = w.isMalformed p)
    (near : let v := w.ensureDefined p.sequence
      p.sequence.After v.lead → ¬ p.sequence.Before v.trail)
    (near' : let v := w'.ensureDefined p.sequence
      p.sequence.After v.lead → ¬ p.sequence.Before v.trail)
    (source : Option RepairSource) (now : Timestamp) :
    (w.acceptData p source now).1.Mirrors (w'.acceptData p source now).1 := by
  cases hm : w.isMalformed p with
  | true =>
    rw [acceptData_of_malformed hm, acceptData_of_malformed (malformed.trans hm)]
    exact h.addMalformed
  | false =>
    obtain ⟨-, defined, hsound, -⟩ := ensureDefined_spec hs p.sequence
    obtain ⟨-, -, hsound', -⟩ := ensureDefined_spec hs' p.sequence
    exact (h.ensureDefined p.sequence).takes hsound hsound' defined near near'
      (takes_acceptData hm source now) (takes_acceptData (malformed.trans hm) source now)

/-! ### News from the sender -/

theorem restart (h : w.Mirrors w') (slot : Slot) (timer : Timer) (now : Timestamp) :
    (w.restart slot timer now).Mirrors (w'.restart slot timer now) := by
  have waits := h.modify slot.sequence (Slot.confirm w.config.1 now)
  have hrestart : w'.restart slot timer now =
      { w'.modify slot.sequence (Slot.confirm w.config.1 now) with
        queues := (w.queues.erase timer slot.sequence).push .waitData slot.sequence } := by
    rw [← h.queues, ← h.config]
    rfl
  rw [hrestart]
  exact waits.queued _

theorem acceptNcf (h : w.Mirrors w') (hs : w.Sound) (hs' : w'.Sound) (s : SeqNum)
    (sent now : Timestamp) : (w.acceptNcf s sent now).1.Mirrors (w'.acceptNcf s sent now).1 := by
  by_cases ahead : w.Ahead s
  · unfold Window.acceptNcf
    rw [h.isDefined, h.slots s ahead]
    split
    · exact h
    split
    · exact h
    split
    · exact h
    split
    · exact h.restart ..
    · exact h
  · rw [hs.acceptNcf_of_behind ahead, hs'.acceptNcf_of_behind (mt h.ahead_iff.1 ahead)]
    exact h

theorem losePending (h : w.Mirrors w') (hs : w.Sound) (hs' : w'.Sound) (s : SeqNum) :
    (w.losePending s).Mirrors (w'.losePending s) := by
  have bare : ∀ {v : Window}, v.Sound → ∀ {x}, ¬ v.Ahead x →
      v.slotIs x (·.state.repairPending) = false := by
    intro v hv x behind
    rw [Bool.eq_false_iff, ne_eq, Window.slotIs, Option.any_eq_true]
    rintro ⟨slot, found, pending⟩
    exact behind (hv.ahead_of_pending found pending)
  have same : ∀ x, w'.slotIs x (·.state.repairPending) = w.slotIs x (·.state.repairPending) := by
    intro x
    by_cases ahead : w.Ahead x
    · exact h.slotIs ahead _
    · rw [bare hs ahead, bare hs' (mt h.ahead_iff.1 ahead)]
  unfold Window.losePending
  simp only [h.commitTrail, h.next, same]
  refine h.loseAll hs fun x hx => ?_
  by_contra behind
  cases (bare hs behind).symm.trans (List.mem_filter.1 hx).2

theorem hear (h : w.Mirrors w') (trail : SeqNum) :
    { w with senderTrail := trail }.Mirrors { w' with senderTrail := trail } :=
  h.change rfl rfl rfl h.losses h.queues h.slots

theorem followTrail (h : w.Mirrors w') (hs : w.Sound) (hs' : w'.Sound) (trail : SeqNum) :
    (w.followTrail trail).Mirrors (w'.followTrail trail) := by
  unfold Window.followTrail
  rw [h.senderTrail]
  split
  · exact (h.hear trail).losePending (hs.of_slots_eq rfl rfl) (hs'.of_slots_eq rfl rfl) trail
  · exact h

theorem followLead (h : w.Mirrors w') (hs : w.Sound) (hs' : w'.Sound) (defined : w.isDefined)
    (lead : SeqNum) (now : Timestamp) :
    (w.followLead lead now).1.Mirrors (w'.followLead lead now).1 := by
  have hlead : w'.lead = w.lead := congrArg SeqNum.prev h.next
  unfold Window.followLead
  rw [hlead]
  split
  next after => exact h.advanceLead hs hs' defined (after_lead_iff.1 after) now
  · exact h

theorem acceptStatus (h : w.Mirrors w') (hs : w.Sound) (hs' : w'.Sound) (trail lead : SeqNum)
    (now : Timestamp) :
    (w.acceptStatus trail lead 0 0 now).1.Mirrors (w'.acceptStatus trail lead 0 0 now).1 := by
  have silent : ∀ v : Window, v.announceGroups 0 0 = v := fun _ => if_pos ⟨rfl, rfl⟩
  unfold Window.acceptStatus
  split
  · exact h.addMalformed
  simp only [silent, h.isDefined]
  split
  · exact (h.define lead.next).hear trail
  next hd =>
    have defined : w.isDefined := by simpa using hd
    obtain ⟨_, hmoves, -⟩ := moves_followLead hs defined lead now
    obtain ⟨_, hmoves', -⟩ := moves_followLead hs' (h.isDefined.trans defined) lead now
    have hsound := hmoves.sound hs
    have hsound' := hmoves'.sound hs'
    obtain ⟨_, hlater, -⟩ := moves_followTrail hsound trail
    obtain ⟨_, hlater', -⟩ := moves_followTrail hsound' trail
    have htrail := (h.followLead hs hs' defined lead now).followTrail hsound hsound' trail
    dsimp only
    exact htrail.resolve (hlater.sound hsound) (hlater'.sound hsound')

theorem acceptLoss (h : w.Mirrors w') (hs : w.Sound) (hs' : w'.Sound) (s : SeqNum) :
    (w.acceptLoss s).1.Mirrors (w'.acceptLoss s).1 := by
  by_cases ahead : w.Ahead s
  · unfold Window.acceptLoss
    rw [h.isDefined, h.commitTrail, h.slots s ahead]
    split
    · exact h
    split
    · exact h
    split
    · exact h
    split
    · exact h
    · exact (h.loseApdu hs ahead).resolve (hs.loseApdu ahead) (hs'.loseApdu (h.ahead_iff.2 ahead))
  · have unchanged : ∀ {v : Window}, v.Sound → ¬ v.Ahead s → (v.acceptLoss s).1 = v := by
      intro v hv behind
      rcases v.acceptLoss_cases s with he | ⟨slot, found, -, hnot, -⟩
      · exact he
      · exact absurd (hv.ahead_of_not_before found hnot) behind
    rw [unchanged hs ahead, unchanged hs' (mt h.ahead_iff.1 ahead)]
    exact h

end Mirrors

end Window

end ReliableMulticast
