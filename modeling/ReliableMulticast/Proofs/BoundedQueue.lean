import Mathlib.Data.List.Nodup
import ReliableMulticast.Proofs.Stretch

/-!
# The ring as a bounded queue

Whoever uses a ring may think of a list of slots whose first one has number `trail`: slots are
appended at its end and taken from its front, and the slot of a number is found by the steps from the
trail. `SlotQueue` is that list, and each operation on a ring does to the list what it does to the
ring and answers the same (`toQueue_step`). So no history of a ring can tell it from the queue
(`ring_eq_queue`), wherever its numbers wrap and however often it laps its array.
-/

namespace ReliableMulticast

/-- Slots for the numbers from `trail` on, no more than `capacity` of them. -/
structure SlotQueue where
  capacity : Nat
  trail : SeqNum
  slots : List Slot

namespace SlotRing

/-- An operation on a ring with its arguments. -/
inductive Op where
  | reset (trail : SeqNum)
  | append (slot : Slot)
  | popTrail
  | get (s : SeqNum)
  /-- Changes the slot of a number, which keeps its number. -/
  | modify (s : SeqNum) (change : Slot → Slot)

/-- What an operation answers. -/
inductive Answer where
  | done
  | refused (why : Refusal)
  /-- The slot that was asked for, taken or changed, if there is one. -/
  | slot (slot : Option Slot)

/-- Does one operation; a slot that is refused leaves the ring as it is. -/
def step (r : SlotRing) : Op → SlotRing × Answer
  | .reset trail => (r.reset trail, .done)
  | .append slot =>
    match r.append? slot with
    | .error why => (r, .refused why)
    | .ok r => (r, .done)
  | .popTrail =>
    match r.popTrail? with
    | none => (r, .slot none)
    | some (slot, r) => (r, .slot (some slot))
  | .get s => (r, .slot (r.get? s))
  | .modify s change => (r.modify s change, .slot ((r.modify s change).get? s))

/-- Does operations one after the other. -/
def perform (r : SlotRing) : List Op → SlotRing × List Answer
  | [] => (r, [])
  | op :: ops =>
    let (r, answer) := r.step op
    let (r, answers) := perform r ops
    (r, answer :: answers)

end SlotRing

namespace SlotQueue

def empty (capacity : Nat) : SlotQueue := ⟨capacity, 0, []⟩

/-- The number that the next slot must have. -/
def next (q : SlotQueue) : SeqNum := q.trail + q.slots.length

def get? (q : SlotQueue) (s : SeqNum) : Option Slot := q.slots[q.trail.gap s]?

def modify (q : SlotQueue) (s : SeqNum) (change : Slot → Slot) : SlotQueue :=
  { q with
    slots := q.slots.modify (q.trail.gap s) fun slot => { change slot with sequence := slot.sequence } }

/-- Does one operation on the list. -/
def step (q : SlotQueue) : SlotRing.Op → SlotQueue × SlotRing.Answer
  | .reset trail => ({ q with trail, slots := [] }, .done)
  | .append slot =>
    if slot.sequence ≠ q.next then (q, .refused .outOfSequence)
    else if q.slots.length < q.capacity then ({ q with slots := q.slots ++ [slot] }, .done)
    else (q, .refused .full)
  | .popTrail =>
    match q.slots with
    | [] => (q, .slot none)
    | slot :: rest => ({ q with trail := q.trail.next, slots := rest }, .slot (some slot))
  | .get s => (q, .slot (q.get? s))
  | .modify s change => (q.modify s change, .slot ((q.modify s change).get? s))

/-- Does operations one after the other. -/
def perform (q : SlotQueue) : List SlotRing.Op → SlotQueue × List SlotRing.Answer
  | [] => (q, [])
  | op :: ops =>
    let (q, answer) := q.step op
    let (q, answers) := perform q ops
    (q, answer :: answers)

theorem capacity_step (q : SlotQueue) (op : SlotRing.Op) : (q.step op).1.capacity = q.capacity := by
  cases op with
  | reset | get | modify => rfl
  | append slot =>
    simp only [step]
    split
    · rfl
    · split <;> rfl
  | popTrail =>
    simp only [step]
    split <;> rfl

theorem capacity_perform (q : SlotQueue) (ops : List SlotRing.Op) :
    (q.perform ops).1.capacity = q.capacity := by
  induction ops generalizing q with
  | nil => rfl
  | cons op ops ih => exact (ih _).trans (q.capacity_step op)

end SlotQueue

namespace SlotRing

variable {r r' : SlotRing} {s x : SeqNum} {slot : Slot}

/-! ### The list of a ring -/

theorem toList_eq_slice (r : SlotRing) : r.toList = r.slice r.trail r.size := rfl

@[simp] theorem length_toList (r : SlotRing) : r.toList.length = r.size := by
  rw [toList_eq_slice, length_slice]
  simp

/-- The slot of a number stands in the list as many places from the front as the number is steps
from the trail. -/
theorem get?_eq_getElem? (r : SlotRing) (x : SeqNum) : r.get? x = r.toList[r.trail.gap x]? := by
  by_cases h : r.trail.gap x < r.size
  · rw [toList_eq_slice, getElem?_slice (by simp) h, SeqNum.add_gap]
  · rw [get?_eq_none (mt contains_iff_gap_lt.1 h), List.getElem?_eq_none (by simpa using h)]

theorem getElem?_toList {k : Nat} (hk : k < r.size) : r.toList[k]? = r.get? (r.trail + k) := by
  have hsize := r.size_le_maxRing
  rw [get?_eq_getElem?, SeqNum.gap_add r.trail (by omega)]

theorem map_sequence_toList (r : SlotRing) : r.toList.map (·.sequence) = r.numbers := by
  rw [toList, List.map_filterMap]
  have own : ∀ x ∈ r.numbers, (r.get? x).map (·.sequence) = some x := by
    intro x hx
    obtain ⟨k, hk, rfl⟩ := SeqNum.mem_run.1 hx
    exact map_sequence_get? (contains_iff.2 ⟨k, hk, rfl⟩)
  rw [List.filterMap_congr own, List.filterMap_some]

theorem nodup_toList (r : SlotRing) : r.toList.Nodup := by
  have hsize := r.size_le_maxRing
  refine List.Nodup.of_map (·.sequence) ?_
  rw [map_sequence_toList]
  exact SeqNum.nodup_run r.trail (by omega)

theorem toList_grow (sequence : slot.sequence = r.next) (room : r.size < r.capacity) :
    (r.grow slot sequence room).toList = r.toList ++ [slot] := by
  have hsize := r.size_le_maxRing
  have hnew : (r.grow slot sequence room).get? r.next = some slot := by
    rw [get?_grow, if_pos rfl]
  have hold : (r.grow slot sequence room).slice r.trail r.size = r.slice r.trail r.size := by
    refine slice_congr fun k hk => ?_
    rw [get?_grow, if_neg]
    intro he
    have := (SeqNum.add_inj (by omega) (by omega)).1 he
    omega
  change (r.grow slot sequence room).slice r.trail (r.size + 1) = _
  rw [slice_add, hold, ← next, slice_succ hnew, slice_zero, toList_eq_slice]

theorem toList_of_popTrail? (h : r.popTrail? = some (slot, r')) : r.toList = slot :: r'.toList := by
  obtain ⟨found, -, htrail, hsize, hget⟩ := popTrail?_eq_some h
  have hmax := r.size_le_maxRing
  rw [toList_eq_slice, ← hsize, slice_succ found, toList_eq_slice, htrail]
  refine congrArg (slot :: ·) (slice_congr fun k hk => ?_).symm
  rw [hget, if_neg]
  intro he
  rw [SeqNum.next_add, ← SeqNum.add_zero r.trail, SeqNum.add_add] at he
  have := (SeqNum.add_inj (by omega) (by omega)).1 he
  omega

theorem toList_modify (r : SlotRing) (s : SeqNum) (change : Slot → Slot) :
    (r.modify s change).toList =
      r.toList.modify (r.trail.gap s) fun slot => { change slot with sequence := slot.sequence } := by
  have hsize := r.size_le_maxRing
  refine List.ext_getElem? fun k => ?_
  rw [List.getElem?_modify]
  by_cases hk : k < r.size
  · have hplace : r.trail + k = s ↔ r.trail.gap s = k := by
      constructor
      · rintro rfl
        exact SeqNum.gap_add _ (by omega)
      · rintro rfl
        exact SeqNum.add_gap _ _
    rw [getElem?_toList (by simpa using hk), getElem?_toList hk, trail_modify, get?_modify]
    simp only [hplace]
    split <;> simp
  · rw [List.getElem?_eq_none (by simpa using hk), List.getElem?_eq_none (by simpa using hk)]
    simp

/-! ### The array -/

/-- A cell that is not empty holds a slot of the ring, and is the cell of that slot's number. -/
theorem get?_of_cell {i : Nat} (h : r.cells[i]? = some (some slot)) :
    r.get? slot.sequence = some slot ∧ slot.sequence.offset r.cells.size = i := by
  obtain ⟨hi, -⟩ := Array.getElem?_eq_some_iff.1 h
  obtain ⟨k, hk, hoffset⟩ := r.exists_offset_eq hi
  have hcell := r.cellOf_add hk
  rw [cellOf, hoffset, h] at hcell
  split at hcell
  · have hnumber := sequence_of_get? hcell.symm
    rw [hnumber]
    exact ⟨hcell.symm, hoffset⟩
  · cases hcell

/-- The array holds each slot of the ring once and nothing else. -/
theorem perm_cellList (r : SlotRing) : r.cellList.Perm r.toList := by
  have cell : ∀ {i} (hi : i < r.cells.toList.length) {slot}, r.cells.toList[i] = some slot →
      r.get? slot.sequence = some slot ∧ slot.sequence.offset r.cells.size = i := by
    intro i hi slot h
    refine get?_of_cell (Array.getElem?_eq_some_iff.2 ⟨by simpa using hi, ?_⟩)
    rwa [Array.getElem_toList] at h
  have hnodup : r.cellList.Nodup := by
    rw [cellList, List.Nodup, List.pairwise_filterMap, List.pairwise_iff_getElem]
    rintro i j hi hj hij slot hslot _ hslot' rfl
    -- Slots of two cells have numbers with different cells.
    have := (cell hi hslot).2
    have := (cell hj hslot').2
    omega
  refine (List.perm_ext_iff_of_nodup hnodup r.nodup_toList).2 fun slot => ⟨fun hm => ?_, fun hm => ?_⟩
  · obtain ⟨_, hc, rfl⟩ := List.mem_filterMap.1 hm
    obtain ⟨i, hi, hget⟩ := List.getElem_of_mem hc
    have found := (cell hi hget).1
    rw [get?_eq_getElem?] at found
    exact List.mem_of_getElem? found
  · obtain ⟨x, -, found⟩ := List.mem_filterMap.1 hm
    exact mem_cellList found

/-! ### Operations -/

def toQueue (r : SlotRing) : SlotQueue := ⟨r.capacity, r.trail, r.toList⟩

theorem next_toQueue (r : SlotRing) : r.toQueue.next = r.next := by
  rw [SlotQueue.next, toQueue, length_toList, next]

theorem get?_toQueue (r : SlotRing) (x : SeqNum) : r.toQueue.get? x = r.get? x :=
  (r.get?_eq_getElem? x).symm

theorem toQueue_grow (sequence : slot.sequence = r.next) (room : r.size < r.capacity) :
    (r.grow slot sequence room).toQueue = { r.toQueue with slots := r.toQueue.slots ++ [slot] } := by
  rw [toQueue, toList_grow]
  rfl

theorem toQueue_modify (r : SlotRing) (s : SeqNum) (change : Slot → Slot) :
    (r.modify s change).toQueue = r.toQueue.modify s change := by
  simp [toQueue, SlotQueue.modify, toList_modify]

/-- An operation does the same to a ring and to its list. -/
theorem toQueue_step (r : SlotRing) (op : Op) :
    (r.step op).map toQueue id = r.toQueue.step op := by
  cases op with
  | reset trail => rfl
  | append slot =>
    rw [step, SlotQueue.step, next_toQueue, append?, refusal?]
    by_cases sequence : slot.sequence = r.next
    · by_cases room : r.size < r.capacity
      · have hlength : r.toQueue.slots.length < r.toQueue.capacity := by simpa [toQueue] using room
        simp [sequence, room, hlength, append_eq sequence room, toQueue_grow]
      · have hlength : ¬ r.toQueue.slots.length < r.toQueue.capacity := by simpa [toQueue] using room
        simp [sequence, room, hlength]
    · simp [sequence]
  | popTrail =>
    rw [step, SlotQueue.step]
    cases h : r.popTrail? with
    | none =>
      have hempty : r.toList = [] := by
        rw [← List.length_eq_zero_iff, length_toList, popTrail?_eq_none_iff.1 h]
      simp [toQueue, hempty]
    | some popped =>
      obtain ⟨slot, r'⟩ := popped
      obtain ⟨-, hcapacity, htrail, -, -⟩ := popTrail?_eq_some h
      simp [toQueue, toList_of_popTrail? h, hcapacity, htrail]
  | get s => rw [step, SlotQueue.step, get?_toQueue]; rfl
  | modify s change => rw [step, SlotQueue.step, ← toQueue_modify, get?_toQueue]; rfl

/-- No history of a ring differs from that of its list. -/
theorem toQueue_perform (r : SlotRing) (ops : List Op) :
    (r.perform ops).map toQueue id = r.toQueue.perform ops := by
  induction ops generalizing r with
  | nil => rfl
  | cons op ops ih =>
    rw [perform, SlotQueue.perform, ← toQueue_step]
    simp only [Prod.map, id, ← ih]

/-! ### Questions -/

/-- All that can be asked of the ring is answered as the queue has it. -/
structure Shows (r : SlotRing) (q : SlotQueue) : Prop where
  capacity : r.capacity = q.capacity
  trail : r.trail = q.trail
  fits : q.slots.length ≤ q.capacity
  lead : r.lead.next = q.trail + q.slots.length
  size : r.size = q.slots.length
  distance : r.trail.distance r.lead.next = q.slots.length
  get? : ∀ k, k < q.slots.length → r.get? (q.trail + k) = q.slots[k]?
  /-- No other number has a slot. -/
  none : ∀ x, (∀ k, k < q.slots.length → x ≠ q.trail + k) → r.get? x = none
  contains : ∀ x, r.Contains x ↔ ∃ k, k < q.slots.length ∧ x = q.trail + k
  isEmpty : r.isEmpty ↔ q.slots = []
  next_eq_trail : r.lead.next = r.trail ↔ q.slots = []
  isFull : r.isFull ↔ q.slots.length = q.capacity
  numbers : r.numbers = q.slots.map (·.sequence)
  range : r.trail.upTo r.lead.next = r.numbers
  /-- The array is gone through in the order of its cells. -/
  cells : r.cellList.Perm q.slots

theorem shows_toQueue (few : r.capacity ≤ 1073741824) : r.Shows r.toQueue := by
  have hsize := r.size_le
  have hslots : r.toQueue.slots.length = r.size := r.length_toList
  have hempty : r.toQueue.slots = [] ↔ r.size = 0 := by rw [← List.length_eq_zero_iff, hslots]
  have hlead : r.lead.next = r.trail + r.size := SeqNum.prev_next _
  have hgap : r.trail.gap (r.trail + r.size) = r.size := SeqNum.gap_add _ (by omega)
  exact
    { capacity := rfl
      trail := rfl
      fits := by rwa [hslots]
      lead := by rw [hslots, hlead]; rfl
      size := hslots.symm
      distance := by rw [hslots, hlead, SeqNum.distance, hgap, if_pos (by omega)]
      get? := by
        intro k hk
        rw [hslots] at hk
        exact (getElem?_toList hk).symm
      none := by
        intro x hx
        rw [hslots] at hx
        refine get?_eq_none fun hc => ?_
        obtain ⟨k, hk, he⟩ := contains_iff.1 hc
        exact hx k hk he
      contains := by
        intro x
        rw [hslots]
        exact contains_iff
      isEmpty := by rw [hempty]; exact decide_eq_true_iff
      next_eq_trail := by rw [hempty, hlead, eq_comm, ← SeqNum.gap_eq_zero_iff, hgap]
      isFull := by rw [hslots]; exact decide_eq_true_iff
      numbers := r.map_sequence_toList.symm
      range := by rw [hlead, SeqNum.upTo_eq_run (by omega), hgap, numbers]
      cells := r.perm_cellList }

/-- A ring of any capacity that a window may have is a bounded queue: after each history it has
answered what the queue answers and shows what the queue holds. -/
theorem ring_eq_queue (capacity : Nat) (pos : 0 < capacity) (le : capacity ≤ 1073741824) :
    ∃ r, ofCapacity capacity = .ok r ∧ ∀ ops : List Op,
      (r.perform ops).2 = ((SlotQueue.empty capacity).perform ops).2 ∧
        (r.perform ops).1.Shows ((SlotQueue.empty capacity).perform ops).1 := by
  have fits : capacity ≤ maxRing := Nat.le_trans le (by decide)
  refine ⟨emptyAt capacity 0 pos fits, by rw [ofCapacity, dif_pos pos, dif_pos fits], fun ops => ?_⟩
  have hperform := (emptyAt capacity 0 pos fits).toQueue_perform ops
  rw [show (emptyAt capacity 0 pos fits).toQueue = .empty capacity from rfl] at hperform
  rw [← hperform]
  refine ⟨rfl, shows_toQueue ?_⟩
  have hcapacity := congrArg (·.1.capacity) hperform
  rw [SlotQueue.capacity_perform] at hcapacity
  exact Nat.le_trans (Nat.le_of_eq hcapacity) le

/-- Three slots are taken in where the numbers wrap and one leaves; two more are refused, for their
number and for want of room. -/
def wrappedOps : List Op :=
  [.reset 4294967295, .append (.placeholder 4294967295 0 0), .append (.placeholder 0 0 0), .popTrail,
    .append (.placeholder 1 0 0), .append (.placeholder 3 0 0), .append (.placeholder 2 0 0),
    .modify 1 Slot.giveUp, .append (.placeholder 3 0 0), .get 1]

theorem ring_eq_queue_small :
    0 < 3 ∧ 3 ≤ 1073741824 ∧ ∃ r, ofCapacity 3 = .ok r ∧
      (r.perform wrappedOps).2 = ((SlotQueue.empty 3).perform wrappedOps).2 ∧
      (r.perform wrappedOps).1.Shows ((SlotQueue.empty 3).perform wrappedOps).1 ∧
      ((SlotQueue.empty 3).perform wrappedOps).1.slots.map (fun s => (s.sequence, s.state)) =
        [(0, .backOff), (1, .lost), (2, .backOff)] := by
  obtain ⟨r, hr, h⟩ := ring_eq_queue 3 (by decide) (by decide)
  exact ⟨by decide, by decide, r, hr, (h wrappedOps).1, (h wrappedOps).2, by rfl⟩

end SlotRing

end ReliableMulticast
