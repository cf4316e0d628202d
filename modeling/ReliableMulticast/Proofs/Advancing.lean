import ReliableMulticast.Proofs.Settling

/-!
# Moves of the lead

When the lead moves, slots at the trail make room one by one, and if that is not enough the emptied
window jumps. `makeRoom_spec` says what is then true of any `last` ahead of the lead: the window has
room for all numbers up to it. The notes tell only of numbers that left undelivered, and of no more
of them than the trail moved on.
-/

namespace ReliableMulticast

/-- Numbers leave the window in some steps, `n` of them at most. -/
def Note.Shed (n : Nat) (notes : List Note) : Prop :=
  ∃ counts : List Nat, notes = counts.map Note.dropped ∧ counts.sum ≤ n

namespace Note

theorem Shed.nil (n : Nat) : Shed n [] := ⟨[], rfl, Nat.zero_le n⟩

theorem Shed.single {m n : Nat} (h : m ≤ n) : Shed n [.dropped m] := ⟨[m], rfl, by simpa using h⟩

theorem Shed.append {m n : Nat} {notes more : List Note} (h : Shed m notes) (h' : Shed n more) :
    Shed (m + n) (notes ++ more) := by
  obtain ⟨counts, rfl, hc⟩ := h
  obtain ⟨counts', rfl, hc'⟩ := h'
  refine ⟨counts ++ counts', (List.map_append ..).symm, ?_⟩
  rw [List.sum_append]
  omega

theorem Shed.mono {m n : Nat} {notes : List Note} (h : Shed m notes) (hmn : m ≤ n) :
    Shed n notes := by
  obtain ⟨counts, rfl, hc⟩ := h
  exact ⟨counts, rfl, Nat.le_trans hc hmn⟩

theorem Shed.packets {n : Nat} {notes : List Note} (h : Shed n notes) : packets notes = [] := by
  obtain ⟨counts, rfl, -⟩ := h
  rw [Note.packets, List.filterMap_map]
  exact List.filterMap_eq_nil_iff.2 fun _ _ => rfl

theorem Shed.messages {n : Nat} {notes : List Note} (h : Shed n notes) : messages notes = [] := by
  obtain ⟨counts, rfl, -⟩ := h
  rw [Note.messages, List.filterMap_map]
  exact List.filterMap_eq_nil_iff.2 fun _ _ => rfl

theorem Shed.told {n : Nat} {notes : List Note} (h : Shed n notes) : told notes = 0 := by
  obtain ⟨counts, rfl, -⟩ := h
  induction counts with
  | nil => rfl
  | cons count counts ih => exact (Nat.zero_add _).trans ih

theorem Shed.regroups {n : Nat} {notes : List Note} (h : Shed n notes) : regroups notes = 0 := by
  obtain ⟨counts, rfl, -⟩ := h
  simp [Note.regroups, Function.comp_def]

theorem Shed.drops {n : Nat} {notes : List Note} (h : Shed n notes) : drops notes ≤ n := by
  obtain ⟨counts, rfl, hc⟩ := h
  rw [Note.drops, List.map_map]
  exact Nat.le_trans (Nat.le_of_eq (congrArg List.sum (List.map_id counts))) hc

end Note

namespace Window

variable {w : Window}

/-! ### Numbers ahead of the lead -/

/-- A number is ahead of the lead if it lies at most half of the number space from the next one. -/
theorem after_lead_iff {x : SeqNum} : x.After w.lead ↔ w.next.gap x < 2147483648 := by
  have hn := w.next.toNat_lt
  have hx := x.toNat_lt
  change w.next.prev.Before x ↔ _
  rw [SeqNum.before_iff]
  simp only [SeqNum.prev, SeqNum.gap_eq, SeqNum.toNat_sub]
  omega

/-- How far the trail has to move until there is room up to `last`. -/
theorem steps_target (h : w.Sound) {last : SeqNum} (hlast : w.next.gap last < 2147483648) :
    w.trail.steps (last - (w.capacity - 1)) = w.slots.size + w.next.gap last + 1 - w.capacity := by
  have hcap := h.capacity_le
  have hpos := Sound.capacity_pos w
  have hsize : w.slots.size ≤ w.capacity := w.slots.size_le
  have ht := w.trail.toNat_lt
  have hl := last.toNat_lt
  have hnext : w.next.raw.toNat = (w.trail.raw.toNat + w.slots.size) % 4294967296 :=
    SeqNum.toNat_add ..
  unfold SeqNum.steps
  split
  all_goals
    next hb =>
      rw [SeqNum.before_iff] at hb
      simp only [SeqNum.gap_eq, SeqNum.toNat_sub, hnext] at *
      omega

/-! ### Making room -/

theorem moves_evictTrail (h : w.Sound) (nonempty : 0 < w.slots.size) :
    ∃ notes, Note.Shed 1 notes ∧ w.Moves notes w.evictTrail ∧
      w.evictTrail.trail = w.trail.next ∧ w.evictTrail.slots.size + 1 = w.slots.size := by
  cases hpop : w.slots.popTrail? with
  | none =>
    have := SlotRing.popTrail?_eq_none_iff.1 hpop
    omega
  | some popped =>
    obtain ⟨slot, slots⟩ := popped
    obtain ⟨-, -, htrail, hsize, -⟩ := SlotRing.popTrail?_eq_some hpop
    by_cases hfront : w.place w.commitTrail = 0
    · refine ⟨[.dropped 1], .single (Nat.le_refl 1), (Move.overrun hfront nonempty).moves, ?_⟩
      rw [Sound.evictTrail_of_front hfront hpop]
      exact ⟨htrail, hsize⟩
    · have hbefore : w.trail.Before w.commitTrail := by
        have := h.place_commitTrail_le
        have := h.size_le
        rw [SeqNum.before_iff]
        unfold place at *
        omega
      have hdrop : w.dropTrail = { w with slots } := by
        rw [dropTrail, hpop]
      have hevict : w.evictTrail = { w.dropTrail with queues := w.queues.unqueue slot } := by
        rw [hdrop, evictTrail, hpop]
        simp only [if_pos hbefore]
      rw [hevict]
      refine ⟨[], .nil 1, ?_, ?_, ?_⟩
      · exact (Move.reclaim (Nat.pos_of_ne_zero hfront)).moves.silent_trans
          (Move.moves (.aside rfl rfl rfl rfl rfl))
      · rw [hdrop]
        exact htrail
      · rw [hdrop]
        exact hsize

theorem moves_evict (n : Nat) (h : w.Sound) (hn : n ≤ w.slots.size) :
    ∃ notes, Note.Shed n notes ∧ w.Moves notes (evict n w) ∧ (evict n w).trail = w.trail + n ∧
      (evict n w).slots.size + n = w.slots.size := by
  induction n generalizing w with
  | zero => exact ⟨[], .nil 0, .done w, (SeqNum.add_zero _).symm, rfl⟩
  | succ n ih =>
    obtain ⟨first, hshed, hmoves, htrail, hsize⟩ := moves_evictTrail h (by omega)
    obtain ⟨later, hshed', hmoves', htrail', hsize'⟩ := ih (hmoves.sound h) (by omega)
    rw [evict]
    refine ⟨first ++ later, ?_, hmoves.trans hmoves', ?_, by omega⟩
    · rw [Nat.add_comm n 1]
      exact hshed.append hshed'
    · rw [htrail', htrail, SeqNum.next_add]

/-- The readable part of a sound window is never behind its trail. -/
theorem Sound.clampCommit_eq (h : w.Sound) : w.clampCommit = w := by
  have hcl : ¬ w.commitLead.Before w.commitTrail := by
    have := h.commitTrail_le
    rw [h.before_iff h.commitLead_le h.place_commitTrail_le]
    omega
  simp only [clampCommit, if_neg h.not_before_trail, if_neg hcl]

/-- Slots at the trail are evicted, and if these are not enough the emptied window jumps. -/
theorem makeRoom_cases (h : w.Sound) {last : SeqNum} (hlast : w.next.gap last < 2147483648) :
    let surplus := w.slots.size + w.next.gap last + 1 - w.capacity
    (surplus ≤ w.slots.size ∧ w.makeRoom last = evict surplus w) ∨
      ∃ target, target.gap last = w.capacity - 1 ∧
        (evict w.slots.size w).trail.gap target + w.slots.size = surplus ∧
        (evict w.slots.size w).slots.size = 0 ∧ (evict w.slots.size w).trail.Before target ∧
        w.makeRoom last = ((evict w.slots.size w).skipTo target).clampCommit := by
  intro surplus
  have hsteps := steps_target h hlast
  have hpos := Sound.capacity_pos w
  have hcapacity : w.slots.size ≤ w.capacity := w.slots.size_le
  have hmax := h.capacity_le
  have hback : (last - (w.capacity - 1)).gap last = w.capacity - 1 := SeqNum.gap_sub (by omega)
  change w.trail.steps _ = surplus at hsteps
  rw [makeRoom]
  simp only [hsteps]
  generalize last - (w.capacity - 1) = target at hsteps hback ⊢
  by_cases hts : surplus ≤ w.slots.size
  · refine .inl ⟨hts, ?_⟩
    rw [Nat.min_eq_right hts]
    obtain ⟨notes, -, hmoves, htrail, -⟩ := moves_evict surplus h hts
    have hnot : ¬ (evict surplus w).trail.Before target := by
      intro hb
      rw [htrail] at hb
      unfold SeqNum.steps at hsteps
      split at hsteps
      · rw [← hsteps, SeqNum.add_gap, SeqNum.before_iff, SeqNum.gap_self] at hb
        omega
      next hnb => exact hnb (by rwa [← hsteps, SeqNum.add_zero] at hb)
    rw [show (evict surplus w).skipTo target = evict surplus w from if_neg hnot,
      (hmoves.sound h).clampCommit_eq]
  · refine .inr ⟨target, hback, ?_⟩
    rw [Nat.min_eq_left (by omega)]
    obtain ⟨notes, -, hmoves, htrail, hsize⟩ := moves_evict w.slots.size h (Nat.le_refl _)
    have hgap : w.trail.gap target = surplus := by
      unfold SeqNum.steps at hsteps
      split at hsteps
      · exact hsteps
      · omega
    have hgap' : (evict w.slots.size w).trail.gap target = surplus - w.slots.size := by
      rw [htrail, ← SeqNum.add_gap w.trail target, hgap]
      exact SeqNum.gap_add_add _ (by omega) (by omega)
    refine ⟨by omega, by omega, ?_, rfl⟩
    rw [SeqNum.before_iff, hgap']
    omega

/-- There is room for all numbers up to `last` if `last` is ahead of the lead. -/
theorem makeRoom_spec (h : w.Sound) (defined : w.isDefined) {last : SeqNum}
    (hlast : w.next.gap last < 2147483648) :
    ∃ notes, Note.Shed (w.slots.size + w.next.gap last + 1 - w.capacity) notes ∧
      w.Moves notes (w.makeRoom last) ∧
      (w.makeRoom last).slots.size + (w.makeRoom last).next.gap last < w.capacity := by
  have hpos := Sound.capacity_pos w
  have hmax := h.capacity_le
  rcases makeRoom_cases h hlast with ⟨hle, he⟩ | ⟨target, hback, hgap, hempty, hahead, he⟩
  · obtain ⟨notes, hshed, hmoves, htrail, hsize⟩ := moves_evict _ h hle
    refine ⟨notes, hshed, he ▸ hmoves, ?_⟩
    have hnext : (w.makeRoom last).next = w.next := by
      rw [he, next, SlotRing.next, show (evict _ w).slots.trail = _ from htrail, SeqNum.add_add,
        Nat.add_comm, hsize]
      rfl
    rw [hnext, he]
    omega
  · obtain ⟨notes, hshed, hmoves, -, -⟩ := moves_evict w.slots.size h (Nat.le_refl _)
    have h' := hmoves.sound h
    have hskip := Move.skip target (hmoves.keeps.isDefined defined) hempty hahead
    refine ⟨_, ?_, he ▸ hmoves.trans hskip.moves, ?_⟩
    · rw [← hgap, Nat.add_comm]
      exact hshed.append (.single (Nat.le_refl _))
    · rw [he, h'.skip_eq hempty hahead]
      change 0 + (target + 0).gap last < w.capacity
      rw [SeqNum.add_zero, hback]
      omega

/-- There is room for placeholders up to `last` and for that of `last` itself. -/
theorem room_makeRoom (h : w.Sound) (defined : w.isDefined) {last : SeqNum}
    (hlast : w.next.gap last < 2147483648) :
    (w.makeRoom last).slots.size + (w.makeRoom last).next.gap last.next ≤
      (w.makeRoom last).capacity := by
  obtain ⟨_, -, hmoves, hroom⟩ := makeRoom_spec h defined hlast
  have hcap := hmoves.capacity_eq h
  have hmax := h.capacity_le
  have hgap : (w.makeRoom last).next.gap last.next = (w.makeRoom last).next.gap last + 1 :=
    SeqNum.gap_add_right (by omega)
  omega

/-! ### Filling the room -/

theorem moves_addPlaceholders_run (now : Timestamp) {n : Nat} (h : w.Sound) (defined : w.isDefined)
    (room : w.slots.size + n ≤ w.capacity) :
    w.Moves [] ((w.next.run n).foldl (addPlaceholder now) w) ∧
      ((w.next.run n).foldl (addPlaceholder now) w).next = w.next + n ∧
      ((w.next.run n).foldl (addPlaceholder now) w).slots.size = w.slots.size + n := by
  induction n generalizing w with
  | zero => exact ⟨.done w, (SeqNum.add_zero _).symm, rfl⟩
  | succ n ih =>
    have first : w.Move [] (addPlaceholder now w w.next) :=
      .addPlaceholder now defined (by omega)
    have h' := first.sound h
    obtain ⟨hnext, hsize, hcap⟩ : (addPlaceholder now w w.next).next = w.next.next ∧
        (addPlaceholder now w w.next).slots.size = w.slots.size + 1 ∧
        (addPlaceholder now w w.next).capacity = w.capacity := places_append rfl (by omega)
    obtain ⟨later, hlast, hall⟩ := ih h' defined (by omega)
    rw [hnext] at later hlast hall
    rw [SeqNum.run, List.foldl_cons]
    refine ⟨first.moves.silent_trans later, ?_, by omega⟩
    rw [hlast, SeqNum.next_add]

/-- New numbers get placeholders, and all other slots stay as they are. -/
theorem get?_addPlaceholders_run (now : Timestamp) {n : Nat} (room : w.slots.size + n ≤ w.capacity)
    (x : SeqNum) :
    ((w.next.run n).foldl (addPlaceholder now) w).slots.get? x =
      if x ∈ w.next.run n then some (.placeholder x now (now + w.config.1.backOff))
      else w.slots.get? x := by
  induction n generalizing w with
  | zero => rfl
  | succ n ih =>
    obtain ⟨hnext, hsize, hcap⟩ : (addPlaceholder now w w.next).next = w.next.next ∧
        (addPlaceholder now w w.next).slots.size = w.slots.size + 1 ∧
        (addPlaceholder now w w.next).capacity = w.capacity := places_append rfl (by omega)
    have hconfig : (addPlaceholder now w w.next).config = w.config := rfl
    have hget : (addPlaceholder now w w.next).slots.get? x =
        if x = w.next then some (.placeholder w.next now (now + w.config.1.backOff))
        else w.slots.get? x := Sound.get?_append rfl (by omega) x
    have later := ih (w := addPlaceholder now w w.next) (by omega)
    rw [hnext, hconfig, hget] at later
    rw [SeqNum.run, List.foldl_cons, later]
    by_cases hx : x = w.next
    · subst hx
      rw [if_pos rfl, if_pos (List.mem_cons_self ..), ite_self]
    · rw [if_neg hx]
      by_cases hmem : x ∈ w.next.next.run n
      · rw [if_pos hmem, if_pos (List.mem_cons_of_mem _ hmem)]
      · rw [if_neg hmem, if_neg fun hm => (List.mem_cons.1 hm).elim hx hmem]

theorem get?_addPlaceholders (stop : SeqNum) (now : Timestamp)
    (room : w.slots.size + w.next.gap stop ≤ w.capacity) (x : SeqNum) :
    (w.addPlaceholders stop now).slots.get? x =
      if x ∈ w.next.upTo stop then some (.placeholder x now (now + w.config.1.backOff))
      else w.slots.get? x := by
  have hmax : w.capacity ≤ 2147483648 := w.slots.capacity_le
  unfold addPlaceholders
  rw [SeqNum.upTo_eq_run (by omega)]
  exact get?_addPlaceholders_run now room x

/-- New placeholders are for numbers that have no slot. -/
theorem not_contains_of_mem_upTo {stop x : SeqNum}
    (room : w.slots.size + w.next.gap stop ≤ w.capacity) (hx : x ∈ w.next.upTo stop) :
    ¬ w.slots.Contains x := by
  have hmax : w.capacity ≤ 2147483648 := w.slots.capacity_le
  rw [SeqNum.upTo_eq_run (by omega)] at hx
  obtain ⟨k, hk, rfl⟩ := SeqNum.mem_run.1 hx
  rw [SlotRing.contains_iff_gap_lt, next, SlotRing.next, SeqNum.add_add, SeqNum.gap_add _ (by omega)]
  omega

theorem addPlaceholders_spec (h : w.Sound) (defined : w.isDefined) (stop : SeqNum) (now : Timestamp)
    (room : w.slots.size + w.next.gap stop ≤ w.capacity) :
    w.Moves [] (w.addPlaceholders stop now) ∧ (w.addPlaceholders stop now).next = stop ∧
      (w.addPlaceholders stop now).slots.size = w.slots.size + w.next.gap stop := by
  have hmax := h.capacity_le
  obtain ⟨hmoves, hnext, hsize⟩ := moves_addPlaceholders_run now h defined room
  rw [SeqNum.add_gap] at hnext
  unfold addPlaceholders
  rw [SeqNum.upTo_eq_run (by omega)]
  exact ⟨hmoves.silent_trans (Move.moves (.aside rfl rfl rfl rfl rfl)), hnext, hsize⟩

/-- The lead moves to `lead`. -/
theorem advanceLead_spec (h : w.Sound) (defined : w.isDefined) {lead : SeqNum}
    (hlead : w.next.gap lead < 2147483648) (now : Timestamp) :
    ∃ notes, Note.Shed (w.slots.size + w.next.gap lead + 1 - w.capacity) notes ∧
      w.Moves notes (w.advanceLead lead now) := by
  obtain ⟨notes, hshed, hmoves, -⟩ := makeRoom_spec h defined hlead
  obtain ⟨hfill, -, -⟩ := addPlaceholders_spec (hmoves.sound h) (hmoves.keeps.isDefined defined)
    lead.next now (room_makeRoom h defined hlead)
  exact ⟨notes, hshed, hmoves.trans_silent hfill⟩

/-- The lead arrives where it is moved to. -/
theorem lead_advanceLead (h : w.Sound) (defined : w.isDefined) {lead : SeqNum}
    (hlead : w.next.gap lead < 2147483648) (now : Timestamp) :
    (w.advanceLead lead now).lead = lead := by
  obtain ⟨notes, -, hmoves, -⟩ := makeRoom_spec h defined hlead
  obtain ⟨-, hnext, -⟩ := addPlaceholders_spec (hmoves.sound h) (hmoves.keeps.isDefined defined)
    lead.next now (room_makeRoom h defined hlead)
  exact (congrArg SeqNum.prev hnext).trans lead.next_prev

/-- A packet ahead of the lead is stored. -/
theorem extend_spec (h : w.Sound) (defined : w.isDefined) {p : Packet}
    (ahead : w.next.gap p.sequence < 2147483648) (now : Timestamp) :
    (w.extend p now).slots.get? p.sequence = some (.ofPacket p now) ∧
      ∃ notes, Note.Shed (w.slots.size + w.next.gap p.sequence + 1 - w.capacity) notes ∧
        w.Moves (notes ++ [.stored p]) (w.extend p now) := by
  obtain ⟨notes, hshed, hmoves, hroom⟩ := makeRoom_spec h defined ahead
  have h' := hmoves.sound h
  have hdefined := hmoves.keeps.isDefined defined
  have hcap := hmoves.capacity_eq h
  obtain ⟨hfill, hnext, hsize⟩ := addPlaceholders_spec h' hdefined p.sequence now
    (by omega)
  have hcap' := hfill.capacity_eq h'
  have store := Move.addPacket p now (hfill.keeps.isDefined hdefined) hnext.symm (by omega)
  refine ⟨?_, notes, hshed, (hmoves.trans_silent hfill).trans store.moves⟩
  exact (Sound.get?_append hnext.symm (by omega) p.sequence).trans (if_pos hnext.symm)

/-- A packet ahead of the lead becomes the lead. -/
theorem next_extend (h : w.Sound) (defined : w.isDefined) {p : Packet}
    (ahead : w.next.gap p.sequence < 2147483648) (now : Timestamp) :
    (w.extend p now).next = p.sequence.next := by
  obtain ⟨notes, -, hmoves, hroom⟩ := makeRoom_spec h defined ahead
  have h' := hmoves.sound h
  have hcap := hmoves.capacity_eq h
  obtain ⟨hfill, hnext, hsize⟩ := addPlaceholders_spec h' (hmoves.keeps.isDefined defined) p.sequence
    now (by omega)
  have hcap' := hfill.capacity_eq h'
  have here : (Slot.ofPacket p now).sequence = _ := hnext.symm
  exact (places_append here (by omega)).1.trans (congrArg SeqNum.next hnext)

end Window

end ReliableMulticast
