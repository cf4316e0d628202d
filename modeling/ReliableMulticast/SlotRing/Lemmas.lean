import ReliableMulticast.SlotRing.Basic

/-!
# The ring by number

What each operation of a ring does to `get?`, which is all that the other modules look at. A
number is in the ring exactly if it is fewer than `size` steps ahead of the trail
(`contains_iff_gap_lt`), and then its slot carries that number (`sequence_of_get?`). Rings that agree in
this are equal (`ext_get?`), so a ring may take a slot in before or after it gives one away
(`popTrail?_append`).
-/

namespace ReliableMulticast.SlotRing

/-! ### Membership -/

theorem size_le_maxRing (r : SlotRing) : r.size ≤ 2147483648 := Nat.le_trans r.size_le r.capacity_le

/-- The two comparisons leave no other number in: neither when the ring is empty nor at the far side
of the number space. -/
theorem contains_iff_gap_lt {r : SlotRing} {x : SeqNum} :
    r.Contains x ↔ r.trail.gap x < r.size := by
  have hsize := r.size_le_maxRing
  have ht := r.trail.toNat_lt
  have hx := x.toNat_lt
  simp only [Contains, SeqNum.AfterOrEq, SeqNum.BeforeOrEq, SeqNum.After, SeqNum.before_iff, lead,
    next, SeqNum.prev, SeqNum.gap_eq, SeqNum.toNat_sub, SeqNum.toNat_add]
  omega

theorem contains_iff {r : SlotRing} {x : SeqNum} :
    r.Contains x ↔ ∃ k, k < r.size ∧ x = r.trail + k := by
  rw [contains_iff_gap_lt]
  constructor
  · intro h
    exact ⟨r.trail.gap x, h, (SeqNum.add_gap r.trail x).symm⟩
  · rintro ⟨k, hk, rfl⟩
    have := r.size_le_maxRing
    rwa [SeqNum.gap_add r.trail (by omega)]

theorem contains_trail {r : SlotRing} (h : 0 < r.size) : r.Contains r.trail :=
  contains_iff.2 ⟨0, h, (SeqNum.add_zero r.trail).symm⟩

/-- Two numbers of the ring with the same cell are the same. -/
theorem eq_of_offset_eq {r : SlotRing} {x y : SeqNum} (hx : r.Contains x) (hy : r.Contains y)
    (h : x.offset r.cells.size = y.offset r.cells.size) : x = y := by
  obtain ⟨j, hj, rfl⟩ := contains_iff.1 hx
  obtain ⟨k, hk, rfl⟩ := contains_iff.1 hy
  have hsize := r.size_le_cells
  rw [r.trail.offset_inj r.cells_dvd (by omega) (by omega) h]

theorem get?_eq_none {r : SlotRing} {x : SeqNum} (h : ¬ r.Contains x) : r.get? x = none := if_neg h

theorem map_sequence_get? {r : SlotRing} {x : SeqNum} (h : r.Contains x) :
    (r.get? x).map Slot.sequence = some x := by
  obtain ⟨k, hk, rfl⟩ := contains_iff.1 h
  have hsize := r.size_le_cells
  rw [get?, if_pos h, r.sequence_eq k (by omega), if_pos hk]

theorem isSome_get?_iff {r : SlotRing} {x : SeqNum} : (r.get? x).isSome ↔ r.Contains x := by
  constructor
  · intro h
    refine Decidable.byContradiction fun hx => ?_
    rw [get?_eq_none hx] at h
    cases h
  · intro h
    have := map_sequence_get? h
    cases hx : r.get? x with
    | none =>
      rw [hx] at this
      cases this
    | some _ => rfl

/-- The slot of a number carries that number. -/
theorem sequence_of_get? {r : SlotRing} {x : SeqNum} {slot : Slot} (h : r.get? x = some slot) :
    slot.sequence = x := by
  have hx : r.Contains x := isSome_get?_iff.1 (by rw [h]; rfl)
  have := map_sequence_get? hx
  rw [h] at this
  exact Option.some.inj this

/-! ### Empty rings -/

theorem mem_cellList {r : SlotRing} {x : SeqNum} {slot : Slot} (h : r.get? x = some slot) :
    slot ∈ r.cellList := by
  unfold get? at h
  split at h
  · exact List.mem_filterMap.2 ⟨some slot, Array.mem_toList_iff.2
      (Array.mem_of_getElem? (Option.join_eq_some_iff.1 h)), rfl⟩
  · cases h

theorem get?_emptyAt (capacity : Nat) (trail x : SeqNum) (pos : 0 < capacity)
    (le : capacity ≤ maxRing) : (emptyAt capacity trail pos le).get? x = none :=
  get?_eq_none fun h => Nat.not_lt_zero _ (contains_iff_gap_lt.1 h)

theorem get?_reset (r : SlotRing) (trail x : SeqNum) : (r.reset trail).get? x = none :=
  get?_emptyAt ..

/-! ### Appending -/

theorem contains_grow (r : SlotRing) (slot : Slot) (sequence : slot.sequence = r.next)
    (room : r.size < r.capacity) (x : SeqNum) :
    (r.grow slot sequence room).Contains x ↔ x = r.next ∨ r.Contains x := by
  have hsize := r.size_le_maxRing
  have hgrow : (r.grow slot sequence room).size = r.size + 1 := rfl
  have htrail : (r.grow slot sequence room).trail = r.trail := rfl
  rw [contains_iff, contains_iff, hgrow, htrail]
  constructor
  · rintro ⟨k, hk, rfl⟩
    by_cases hlt : k < r.size
    · exact .inr ⟨k, hlt, rfl⟩
    · exact .inl (by rw [next, show k = r.size by omega])
  · rintro (rfl | ⟨k, hk, rfl⟩)
    · exact ⟨r.size, Nat.lt_succ_self _, rfl⟩
    · exact ⟨k, Nat.lt_succ_of_lt hk, rfl⟩

theorem get?_grow (r : SlotRing) (slot : Slot) (sequence : slot.sequence = r.next)
    (room : r.size < r.capacity) (x : SeqNum) :
    (r.grow slot sequence room).get? x = if x = r.next then some slot else r.get? x := by
  have hnext := (contains_grow r slot sequence room r.next).2 (.inl rfl)
  have hcell : cellOf (r.grow slot sequence room).cells x =
      if slot.sequence.offset r.cells.size = x.offset r.cells.size then some slot
      else cellOf r.cells x := cellOf_set _ _ _ _ r.cells_pos
  by_cases hx : x = r.next
  · rw [if_pos hx, get?, if_pos (hx ▸ hnext), hcell, if_pos (by rw [sequence, hx])]
  · rw [if_neg hx]
    by_cases hc : r.Contains x
    · have hgrow := (contains_grow r slot sequence room x).2 (.inr hc)
      rw [get?, if_pos hgrow, get?, if_pos hc, hcell, if_neg]
      intro h
      have hcells : (r.grow slot sequence room).cells.size = r.cells.size :=
        Array.size_setIfInBounds
      refine hx (eq_of_offset_eq hgrow hnext ?_)
      rw [hcells, ← h, sequence]
    · rw [get?_eq_none hc, get?_eq_none fun h => ((contains_grow ..).1 h).elim hx hc]

/-- A slot is taken in exactly if it is next in sequence and there is room. -/
theorem refusal?_eq_none_iff {r : SlotRing} {slot : Slot} :
    r.refusal? slot = none ↔ slot.sequence = r.next ∧ r.size < r.capacity := by
  unfold refusal?
  split
  next h => exact ⟨fun e => (nomatch e), fun e => absurd e.1 h⟩
  next h =>
    split
    next hr => exact ⟨fun _ => ⟨Decidable.not_not.1 h, hr⟩, fun _ => rfl⟩
    next hr => exact ⟨fun e => (nomatch e), fun e => absurd e.2 hr⟩

theorem append_eq {r : SlotRing} {slot : Slot} (sequence : slot.sequence = r.next)
    (room : r.size < r.capacity) : r.append slot = r.grow slot sequence room :=
  dif_pos ⟨sequence, room⟩

theorem trail_append (r : SlotRing) (slot : Slot) : (r.append slot).trail = r.trail := by
  unfold append
  split <;> rfl

/-! ### Dropping the trail -/

theorem contains_dropTrail {r : SlotRing} {pos : 0 < r.size} {x : SeqNum} :
    (r.dropTrail pos).Contains x ↔ r.Contains x ∧ x ≠ r.trail := by
  have hsize := r.size_le_maxRing
  have hdrop : (r.dropTrail pos).size = r.size - 1 := rfl
  have htrail : (r.dropTrail pos).trail = r.trail.next := rfl
  rw [contains_iff, contains_iff, hdrop, htrail]
  constructor
  · rintro ⟨k, hk, rfl⟩
    rw [SeqNum.next_add]
    refine ⟨⟨k + 1, by omega, rfl⟩, fun h => ?_⟩
    rw [← SeqNum.add_zero r.trail, SeqNum.add_add,
      SeqNum.add_inj (by omega) (by omega)] at h
    omega
  · rintro ⟨⟨k, hk, rfl⟩, hx⟩
    have hk0 : k ≠ 0 := fun h => hx (by rw [h, SeqNum.add_zero])
    exact ⟨k - 1, by omega, by rw [SeqNum.next_add, Nat.sub_add_cancel (by omega)]⟩

theorem get?_dropTrail (r : SlotRing) (pos : 0 < r.size) (x : SeqNum) :
    (r.dropTrail pos).get? x = if x = r.trail then none else r.get? x := by
  by_cases hx : x = r.trail
  · rw [if_pos hx, get?_eq_none fun h => (contains_dropTrail.1 h).2 hx]
  · rw [if_neg hx]
    by_cases hc : r.Contains x
    · have htrail := contains_trail pos
      rw [get?, if_pos (contains_dropTrail.2 ⟨hc, hx⟩), get?, if_pos hc]
      show cellOf (r.cells.setIfInBounds (r.trail.offset r.cells.size) none) x = _
      rw [cellOf_set _ _ _ _ r.cells_pos, if_neg fun h => hx (eq_of_offset_eq htrail hc h).symm]
    · rw [get?_eq_none hc, get?_eq_none fun h => hc (contains_dropTrail.1 h).1]

theorem popTrail?_eq_none_iff {r : SlotRing} : r.popTrail? = none ↔ r.size = 0 := by
  unfold popTrail?
  split
  next pos =>
    have : (r.get? r.trail).isSome := isSome_get?_iff.2 (contains_trail pos)
    rw [Option.map_eq_none_iff]
    constructor
    · intro h
      rw [h] at this
      cases this
    · intro h
      omega
  next pos => exact ⟨fun _ => by omega, fun _ => rfl⟩

theorem popTrail?_eq {r : SlotRing} {slot : Slot} (pos : 0 < r.size) (found : r.get? r.trail = some slot) :
    r.popTrail? = some (slot, r.dropTrail pos) := by
  rw [popTrail?, dif_pos pos, found, Option.map_some]

theorem popTrail?_eq_some {r r' : SlotRing} {slot : Slot} (h : r.popTrail? = some (slot, r')) :
    r.get? r.trail = some slot ∧ r'.capacity = r.capacity ∧ r'.trail = r.trail.next ∧
      r'.size + 1 = r.size ∧ ∀ x, r'.get? x = if x = r.trail then none else r.get? x := by
  unfold popTrail? at h
  split at h
  next pos =>
    obtain ⟨s, hs, he⟩ := Option.map_eq_some_iff.1 h
    obtain ⟨rfl, rfl⟩ := Prod.mk.inj he
    exact ⟨hs, rfl, rfl, Nat.sub_add_cancel pos, r.get?_dropTrail pos⟩
  next => cases h

/-! ### Changing a slot -/

@[simp] theorem capacity_modify (r : SlotRing) (s : SeqNum) (change : Slot → Slot) :
    (r.modify s change).capacity = r.capacity := by
  unfold modify
  split <;> rfl

@[simp] theorem trail_modify (r : SlotRing) (s : SeqNum) (change : Slot → Slot) :
    (r.modify s change).trail = r.trail := by
  unfold modify
  split <;> rfl

@[simp] theorem size_modify (r : SlotRing) (s : SeqNum) (change : Slot → Slot) :
    (r.modify s change).size = r.size := by
  unfold modify
  split <;> rfl

theorem contains_modify {r : SlotRing} {s x : SeqNum} {change : Slot → Slot} :
    (r.modify s change).Contains x ↔ r.Contains x := by
  rw [contains_iff_gap_lt, contains_iff_gap_lt, trail_modify, size_modify]

theorem get?_modify (r : SlotRing) (s x : SeqNum) (change : Slot → Slot) :
    (r.modify s change).get? x =
      if x = s then (r.get? x).map fun slot => { change slot with sequence := slot.sequence }
      else r.get? x := by
  by_cases hx : r.Contains x
  · by_cases hs : r.Contains s
    · rw [get?, if_pos (contains_modify.2 hx), get?, if_pos hx, modify, if_pos hs]
      show cellOf (r.cells.modify (s.offset r.cells.size) _) x = _
      rw [cellOf_modify _ _ _ _ r.cells_pos]
      by_cases he : x = s
      · rw [if_pos he, if_pos (by rw [he])]
      · rw [if_neg he, if_neg fun h => he (eq_of_offset_eq hs hx h).symm]
    · have he : x ≠ s := fun e => hs (e ▸ hx)
      rw [if_neg he, modify, if_neg hs]
  · rw [get?_eq_none (mt contains_modify.1 hx), get?_eq_none hx]
    split <;> rfl

/-! ### Equality -/

/-- Every cell is that of a number within a lap of the trail. -/
theorem exists_offset_eq (r : SlotRing) {i : Nat} (hi : i < r.cells.size) :
    ∃ k, k < r.cells.size ∧ (r.trail + k).offset r.cells.size = i := by
  have hlap := Nat.div_add_mod r.trail.raw.toNat r.cells.size
  have hlt := Nat.mod_lt r.trail.raw.toNat r.cells_pos
  refine ⟨(i + r.cells.size - r.trail.raw.toNat % r.cells.size) % r.cells.size,
    Nat.mod_lt _ r.cells_pos, ?_⟩
  rw [SeqNum.offset_add _ _ r.cells_dvd, Nat.add_mod_mod]
  generalize r.trail.raw.toNat / r.cells.size = laps at hlap
  rw [show r.trail.raw.toNat + (i + r.cells.size - r.trail.raw.toNat % r.cells.size) =
    i + r.cells.size * (laps + 1) by rw [Nat.mul_add]; omega, Nat.add_mul_mod_self_left,
    Nat.mod_eq_of_lt hi]

theorem cellOf_add (r : SlotRing) {k : Nat} (hk : k < r.cells.size) :
    cellOf r.cells (r.trail + k) = if k < r.size then r.get? (r.trail + k) else none := by
  split
  next hlt => rw [get?, if_pos (contains_iff.2 ⟨k, hlt, rfl⟩)]
  next hlt =>
    have hnone := r.sequence_eq k hk
    rwa [if_neg hlt, Option.map_eq_none_iff] at hnone

/-- Rings of one capacity that stand at the same place and hold the same slots are the same. -/
theorem ext_get? {r r' : SlotRing} (capacity : r.capacity = r'.capacity) (trail : r.trail = r'.trail)
    (size : r.size = r'.size) (get? : ∀ x, r.get? x = r'.get? x) : r = r' := by
  have hlength : r.cells.size = r'.cells.size := by rw [r.cells_size, r'.cells_size, capacity]
  have hcells : r.cells = r'.cells := by
    refine Array.ext hlength fun i hi hi' => ?_
    obtain ⟨k, hk, rfl⟩ := r.exists_offset_eq hi
    have hcell := r.cellOf_add hk
    have hcell' := r'.cellOf_add (hlength ▸ hk)
    rw [← trail, ← size, ← get?, ← hcell] at hcell'
    unfold cellOf at hcell'
    rw [← hlength, Array.getElem?_eq_getElem hi, Array.getElem?_eq_getElem hi'] at hcell'
    exact hcell'.symm
  cases r
  cases r'
  cases capacity
  cases trail
  cases size
  cases hcells
  rfl

/-! ### Taking slots in while others leave -/

variable {r r' : SlotRing} {slot new : Slot}

theorem trail_ne_next (nonempty : 0 < r.size) : r.trail ≠ r.next := by
  have hmax := r.size_le_maxRing
  intro h
  have hzero := (SeqNum.add_inj (a := r.trail) (m := 0) (by omega) (by omega)).1
    ((SeqNum.add_zero r.trail).trans h)
  omega

theorem next_of_popTrail? (hpop : r.popTrail? = some (slot, r')) : r'.next = r.next := by
  obtain ⟨-, -, htrail, hsize, -⟩ := popTrail?_eq_some hpop
  rw [next, htrail, SeqNum.next_add, hsize]
  rfl

/-- A ring that gives its first slot away and takes another one in does either first. -/
theorem popTrail?_append (hpop : r.popTrail? = some (slot, r')) (sequence : new.sequence = r.next)
    (room : r.size < r.capacity) : (r.append new).popTrail? = some (slot, r'.append new) := by
  have hnext := next_of_popTrail? hpop
  obtain ⟨found, hcap, htrail, hsize, hget⟩ := popTrail?_eq_some hpop
  have apart := trail_ne_next (r := r) (by omega)
  have room' : r'.size < r'.capacity := by omega
  have nonempty : 0 < (r.grow new sequence room).size := Nat.succ_pos _
  rw [append_eq sequence room, append_eq (sequence.trans hnext.symm) room',
    popTrail?_eq nonempty (((get?_grow ..).trans (if_neg apart)).trans found)]
  refine congrArg (fun ring => some (slot, ring)) (ext_get? hcap.symm htrail.symm ?_ fun x => ?_)
  · change r.size + 1 - 1 = r'.size + 1
    omega
  · rw [get?_dropTrail, get?_grow, get?_grow, hget, hnext]
    change (if x = r.trail then none else if x = r.next then some new else r.get? x) = _
    by_cases hx : x = r.trail
    · subst hx
      rw [if_pos rfl, if_neg apart, if_pos rfl]
    · rw [if_neg hx, if_neg hx]

/-- The only slot of a ring leaves it empty at the next number. -/
theorem popTrail?_append_of_empty (empty : r.size = 0) (sequence : new.sequence = r.next) :
    (r.append new).popTrail? = some (new, r.reset r.trail.next) := by
  have hnext : r.next = r.trail := by rw [next, empty, SeqNum.add_zero]
  have room : r.size < r.capacity := empty ▸ r.capacity_pos
  have nonempty : 0 < (r.grow new sequence room).size := Nat.succ_pos _
  rw [append_eq sequence room,
    popTrail?_eq nonempty ((get?_grow ..).trans (if_pos hnext.symm))]
  refine congrArg (fun ring => some (new, ring)) (ext_get? rfl rfl empty fun x => ?_)
  rw [get?_reset, get?_dropTrail, get?_grow, hnext]
  change (if x = r.trail then none else if x = r.trail then some new else r.get? x) = none
  split
  · rfl
  · refine get?_eq_none fun hc => ?_
    rw [contains_iff_gap_lt, empty] at hc
    exact Nat.not_lt_zero _ hc

end ReliableMulticast.SlotRing
