/-!
# Sequence numbers

A sequence number is a 32 bit word that wraps around, so two numbers are compared by how far it is
from one to the other and never by their size. `gap a b` counts the steps forward from `a` to `b`;
order, signed distance and ranges are all read off it. The order is a faithful one on any stretch
of less than half of the number space; at exactly half, each of two numbers is before the other.
-/

namespace ReliableMulticast

/-- A wrapping 32 bit sequence number. -/
structure SeqNum where
  raw : UInt32
  deriving DecidableEq, Repr, Inhabited

namespace SeqNum

instance : OfNat SeqNum n := ⟨⟨OfNat.ofNat n⟩⟩

instance : ToString SeqNum := ⟨fun s => toString s.raw.toNat⟩

/-- The number `n` steps after `s`. -/
def add (s : SeqNum) (n : Nat) : SeqNum := ⟨s.raw + UInt32.ofNat n⟩

/-- The number `n` steps before `s`. -/
def sub (s : SeqNum) (n : Nat) : SeqNum := ⟨s.raw - UInt32.ofNat n⟩

instance : HAdd SeqNum Nat SeqNum := ⟨add⟩

instance : HSub SeqNum Nat SeqNum := ⟨sub⟩

def next (s : SeqNum) : SeqNum := s + 1

def prev (s : SeqNum) : SeqNum := s - 1

/-! ### Order -/

/-- The number of steps forward from `a` to `b`, below `2 ^ 32`. -/
def gap (a b : SeqNum) : Nat := (b.raw - a.raw).toNat

/-- The signed number of steps from `a` to `b`, in `[-2 ^ 31, 2 ^ 31)`. -/
def distance (a b : SeqNum) : Int :=
  if a.gap b < 2147483648 then (a.gap b : Int) else (a.gap b : Int) - 4294967296

/-- Going from `b` to `a` is a step back. -/
def Before (a b : SeqNum) : Prop := b.distance a < 0

def After (a b : SeqNum) : Prop := b.Before a

def BeforeOrEq (a b : SeqNum) : Prop := ¬ a.After b

def AfterOrEq (a b : SeqNum) : Prop := ¬ a.Before b

instance (a b : SeqNum) : Decidable (a.Before b) := inferInstanceAs (Decidable (_ < _))

instance (a b : SeqNum) : Decidable (a.After b) := inferInstanceAs (Decidable (b.Before a))

instance (a b : SeqNum) : Decidable (a.BeforeOrEq b) := inferInstanceAs (Decidable (¬ a.After b))

instance (a b : SeqNum) : Decidable (a.AfterOrEq b) := inferInstanceAs (Decidable (¬ a.Before b))

/-! ### Ranges -/

/-- The `n` numbers that start at `s`, in order. -/
def run (s : SeqNum) : Nat → List SeqNum
  | 0 => []
  | n + 1 => s :: run s.next n

/-- How many numbers the range from `a` up to and without `b` has: none unless `a` is before `b`. -/
def steps (a b : SeqNum) : Nat := if a.Before b then a.gap b else 0

/-- The numbers from `a` up to and without `b`, in order. -/
def upTo (a b : SeqNum) : List SeqNum := a.run (a.steps b)

/-- The first `limit` numbers of the range from `a` up to and without `b`. -/
def upToAtMost (a b : SeqNum) (limit : Nat) : List SeqNum := a.run (min limit (a.steps b))

end SeqNum

end ReliableMulticast
