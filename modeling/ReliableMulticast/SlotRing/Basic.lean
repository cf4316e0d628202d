import ReliableMulticast.SeqNum.Lemmas
import ReliableMulticast.Slot.Basic

/-!
# The ring of slots

The slots of a window stand in an array whose length is a power of two, each at its sequence number
modulo that length. The ring holds the numbers from `trail` on, `size` of them, and grows only at
its lead and shrinks only at its trail. That the cells hold exactly these numbers is part of the
type (`sequence_eq`): the cell of `trail + k` holds the slot of that number for every `k` below
`size`, and all other cells are empty. It is kept because the array's length divides the number of
sequence numbers, so a lap of the array never meets a cell twice (`offset_inj`), also where the
numbers wrap.
-/

namespace ReliableMulticast

/-- The length of the array: the least power of two that has room for the capacity. -/
def ringLength (capacity : Nat) : Nat := if capacity ≤ 1 then 1 else 1 <<< ((capacity - 1).log2 + 1)

/-- The largest capacity: half of the number space. -/
def maxRing : Nat := 2147483648

theorem ringLength_pos (capacity : Nat) : 0 < ringLength capacity := by
  unfold ringLength
  split
  · exact Nat.one_pos
  · rw [Nat.one_shiftLeft]
    exact Nat.two_pow_pos _

theorem le_ringLength (capacity : Nat) : capacity ≤ ringLength capacity := by
  unfold ringLength
  split
  · assumption
  · have := @Nat.lt_log2_self (capacity - 1)
    rw [Nat.one_shiftLeft]
    omega

theorem ringLength_dvd {capacity : Nat} (h : capacity ≤ maxRing) :
    ringLength capacity ∣ 4294967296 := by
  unfold ringLength
  split
  · exact Nat.one_dvd _
  · unfold maxRing at h
    have hlog : (capacity - 1).log2 < 31 := (Nat.log2_lt (by omega)).2 (by omega)
    rw [Nat.one_shiftLeft]
    exact Nat.pow_dvd_pow 2 (show (capacity - 1).log2 + 1 ≤ 32 by omega)

/-- The cell of a number in an array of the given length. -/
def SeqNum.offset (s : SeqNum) (length : Nat) : Nat := s.raw.toNat % length

/-- The content of the cell of number `s`. -/
def cellOf (cells : Array (Option Slot)) (s : SeqNum) : Option Slot :=
  (cells[s.offset cells.size]?).join

namespace SeqNum

theorem offset_add (s : SeqNum) (k : Nat) {length : Nat} (h : length ∣ 4294967296) :
    (s + k).offset length = (s.raw.toNat + k) % length := by
  rw [offset, toNat_add, Nat.mod_mod_of_dvd _ h]

/-- Within a lap no two numbers share a cell. -/
theorem offset_inj (s : SeqNum) {j k length : Nat} (h : length ∣ 4294967296) (hj : j < length)
    (hk : k < length) (he : (s + j).offset length = (s + k).offset length) : j = k := by
  rw [offset_add s j h, offset_add s k h] at he
  have key : ∀ {a b : Nat}, b < length → (s.raw.toNat + b) % length = (s.raw.toNat + a) % length →
      b - a = 0 := by
    intro a b hb hab
    have hzero := Nat.sub_mod_eq_zero_of_mod_eq hab
    rwa [Nat.add_sub_add_left, Nat.mod_eq_of_lt (by omega)] at hzero
  have := key hj he
  have := key hk he.symm
  omega

/-- The number one lap ahead has the same cell. -/
theorem offset_add_length (s : SeqNum) {length : Nat} (h : length ∣ 4294967296) :
    (s + length).offset length = s.offset length := by
  rw [offset_add s length h, Nat.add_mod_right, offset]

end SeqNum

/-- The slots of `size` numbers from `trail` on. -/
structure SlotRing where
  capacity : Nat
  trail : SeqNum
  size : Nat
  cells : Array (Option Slot)
  capacity_pos : 0 < capacity
  capacity_le : capacity ≤ maxRing
  size_le : size ≤ capacity
  cells_size : cells.size = ringLength capacity
  sequence_eq : ∀ k, k < cells.size →
    (cellOf cells (trail + k)).map Slot.sequence = if k < size then some (trail + k) else none

/-- Why a ring is not made or a slot not taken in. -/
inductive SlotRing.Refusal where
  | noCapacity
  | capacityTooLarge
  | outOfSequence
  | full
  deriving DecidableEq, Repr

def SlotRing.Refusal.message : SlotRing.Refusal → String
  | .noCapacity => "capacity must be positive"
  | .capacityTooLarge => "capacity must not exceed half of the sequence numbers"
  | .outOfSequence => "slots must be appended in sequence"
  | .full => "slot store is full"

/-! ### Cells after a write -/

theorem cellOf_set (cells : Array (Option Slot)) (s x : SeqNum) (v : Option Slot)
    (h : 0 < cells.size) :
    cellOf (cells.setIfInBounds (s.offset cells.size) v) x =
      if s.offset cells.size = x.offset cells.size then v else cellOf cells x := by
  have hs : s.offset cells.size < cells.size := Nat.mod_lt _ h
  unfold cellOf
  rw [Array.size_setIfInBounds, Array.getElem?_setIfInBounds, if_pos hs]
  split
  · rfl
  · rfl

theorem cellOf_modify (cells : Array (Option Slot)) (s x : SeqNum) (f : Option Slot → Option Slot)
    (h : 0 < cells.size) :
    cellOf (cells.modify (s.offset cells.size) f) x =
      if s.offset cells.size = x.offset cells.size then f (cellOf cells x) else cellOf cells x := by
  have hx : x.offset cells.size < cells.size := Nat.mod_lt _ h
  unfold cellOf
  rw [Array.size_modify, Array.getElem?_modify]
  split
  · rw [Array.getElem?_eq_getElem hx]
    rfl
  · rfl

theorem cellOf_replicate_none (n : Nat) (s : SeqNum) :
    cellOf (Array.replicate n none) s = none := by
  unfold cellOf
  rw [Array.getElem?_replicate]
  split <;> rfl

namespace SlotRing

/-! ### Making a ring -/

/-- A ring without slots whose first number will be `trail`. -/
def emptyAt (capacity : Nat) (trail : SeqNum) (pos : 0 < capacity) (le : capacity ≤ maxRing) :
    SlotRing where
  capacity := capacity
  trail := trail
  size := 0
  cells := Array.replicate (ringLength capacity) none
  capacity_pos := pos
  capacity_le := le
  size_le := Nat.zero_le _
  cells_size := Array.size_replicate
  sequence_eq := fun k _ => by
    rw [cellOf_replicate_none, if_neg (Nat.not_lt_zero k)]
    rfl

/-- An empty ring at number zero. -/
def ofCapacity (capacity : Nat) : Except Refusal SlotRing :=
  if pos : 0 < capacity then
    if le : capacity ≤ maxRing then .ok (emptyAt capacity 0 pos le) else .error .capacityTooLarge
  else .error .noCapacity

/-- The ring emptied; its first number will be `trail`. -/
def reset (r : SlotRing) (trail : SeqNum) : SlotRing :=
  emptyAt r.capacity trail r.capacity_pos r.capacity_le

/-! ### Reading -/

/-- The number that the next appended slot must have. -/
def next (r : SlotRing) : SeqNum := r.trail + r.size

/-- The last number of the ring; the one before `trail` if it is empty. -/
def lead (r : SlotRing) : SeqNum := r.next.prev

def isEmpty (r : SlotRing) : Bool := r.size = 0

def isFull (r : SlotRing) : Bool := r.size = r.capacity

/-- The number lies neither before the trail nor after the lead. -/
def Contains (r : SlotRing) (s : SeqNum) : Prop := s.AfterOrEq r.trail ∧ s.BeforeOrEq r.lead

instance (r : SlotRing) (s : SeqNum) : Decidable (r.Contains s) :=
  inferInstanceAs (Decidable (_ ∧ _))

/-- The slot of a number. -/
def get? (r : SlotRing) (s : SeqNum) : Option Slot :=
  if r.Contains s then cellOf r.cells s else none

/-- The numbers of the ring, in order. -/
def numbers (r : SlotRing) : List SeqNum := r.trail.run r.size

/-- The slots of the ring, from the trail to the lead. -/
def toList (r : SlotRing) : List Slot := r.numbers.filterMap r.get?

/-- The slots in the order of their cells. -/
def cellList (r : SlotRing) : List Slot := r.cells.toList.filterMap id

theorem cells_pos (r : SlotRing) : 0 < r.cells.size := r.cells_size ▸ ringLength_pos r.capacity

theorem cells_dvd (r : SlotRing) : r.cells.size ∣ 4294967296 :=
  r.cells_size ▸ ringLength_dvd r.capacity_le

theorem size_le_cells (r : SlotRing) : r.size ≤ r.cells.size :=
  Nat.le_trans r.size_le (r.cells_size ▸ le_ringLength r.capacity)

/-! ### Changing -/

/-- The ring with the next slot in sequence, if there is room. -/
def grow (r : SlotRing) (slot : Slot) (sequence : slot.sequence = r.next)
    (room : r.size < r.capacity) : SlotRing :=
  { r with
    size := r.size + 1
    cells := r.cells.setIfInBounds (slot.sequence.offset r.cells.size) (some slot)
    size_le := room
    cells_size := by rw [Array.size_setIfInBounds, r.cells_size]
    sequence_eq := by
      intro k hk
      rw [Array.size_setIfInBounds] at hk
      have hsize : r.size < r.cells.size :=
        Nat.lt_of_lt_of_le room (r.cells_size ▸ le_ringLength r.capacity)
      rw [cellOf_set _ _ _ _ r.cells_pos, sequence, next]
      split
      next h =>
        obtain rfl := r.trail.offset_inj r.cells_dvd hsize hk h
        rw [if_pos (Nat.lt_succ_self _), Option.map_some, sequence, next]
      next h =>
        have hne : k ≠ r.size := fun e => h (by rw [e])
        rw [r.sequence_eq k hk]
        by_cases hlt : k < r.size
        · rw [if_pos hlt, if_pos (Nat.lt_succ_of_lt hlt)]
        · rw [if_neg hlt, if_neg (by omega)] }

/-- Why a slot is not taken in: it must be the next one in sequence and find room. -/
def refusal? (r : SlotRing) (slot : Slot) : Option Refusal :=
  if slot.sequence ≠ r.next then some .outOfSequence
  else if r.size < r.capacity then none
  else some .full

/-- The ring with one more slot; the ring as it is if the slot is refused. -/
def append (r : SlotRing) (slot : Slot) : SlotRing :=
  if h : slot.sequence = r.next ∧ r.size < r.capacity then r.grow slot h.1 h.2 else r

/-- The ring with one more slot, or why the slot is refused. -/
def append? (r : SlotRing) (slot : Slot) : Except Refusal SlotRing :=
  match r.refusal? slot with
  | some e => .error e
  | none => .ok (r.append slot)

/-- The ring without its first slot. -/
def dropTrail (r : SlotRing) (pos : 0 < r.size) : SlotRing :=
  { r with
    trail := r.trail.next
    size := r.size - 1
    cells := r.cells.setIfInBounds (r.trail.offset r.cells.size) none
    size_le := by have := r.size_le; omega
    cells_size := by rw [Array.size_setIfInBounds, r.cells_size]
    sequence_eq := by
      intro k hk
      rw [Array.size_setIfInBounds] at hk
      have hsize := r.size_le_cells
      rw [cellOf_set _ _ _ _ r.cells_pos, SeqNum.next_add]
      by_cases hlap : k + 1 < r.cells.size
      · rw [if_neg, r.sequence_eq (k + 1) hlap]
        · by_cases hlt : k + 1 < r.size
          · rw [if_pos hlt, if_pos (by omega)]
          · rw [if_neg hlt, if_neg (by omega)]
        · intro h
          rw [← SeqNum.add_zero r.trail, SeqNum.add_add, Nat.zero_add] at h
          have := r.trail.offset_inj r.cells_dvd r.cells_pos hlap h
          omega
      · have hk1 : k + 1 = r.cells.size := by omega
        rw [if_pos, if_neg (by omega)]
        · rfl
        · rw [hk1, SeqNum.offset_add_length _ r.cells_dvd] }

/-- The first slot and the ring without it. -/
def popTrail? (r : SlotRing) : Option (Slot × SlotRing) :=
  if pos : 0 < r.size then (r.get? r.trail).map fun slot => (slot, r.dropTrail pos) else none

/-- The ring with the slot of a number changed; a slot keeps its number whatever the change. -/
def modify (r : SlotRing) (s : SeqNum) (change : Slot → Slot) : SlotRing :=
  if r.Contains s then
    { r with
      cells := r.cells.modify (s.offset r.cells.size)
        (Option.map fun slot => { change slot with sequence := slot.sequence })
      cells_size := by rw [Array.size_modify, r.cells_size]
      sequence_eq := by
        intro k hk
        rw [Array.size_modify] at hk
        rw [cellOf_modify _ _ _ _ r.cells_pos, ← r.sequence_eq k hk]
        split
        · rw [Option.map_map]
          rfl
        · rfl }
  else r

end SlotRing

end ReliableMulticast
