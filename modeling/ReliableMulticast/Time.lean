/-!
# Times and durations

A timestamp counts microseconds in 64 bits and stops at the last one that fits. A duration is exact
to the nanosecond, so a duration shorter than a microsecond is positive although it moves no
timestamp.
-/

namespace ReliableMulticast

/-- A span of time in nanoseconds. -/
structure Duration where
  nanos : Nat
  deriving DecidableEq, Repr, Inhabited

namespace Duration

def ofMicros (n : Nat) : Duration := ⟨n * 1000⟩

/-- The whole microseconds in `d`. -/
def micros (d : Duration) : Nat := d.nanos / 1000

end Duration

/-- A moment, in microseconds since the clock's origin. -/
structure Timestamp where
  micros : UInt64
  deriving DecidableEq, Repr, Inhabited

namespace Timestamp

instance : OfNat Timestamp n := ⟨⟨OfNat.ofNat n⟩⟩

instance : LE Timestamp := ⟨fun a b => a.micros.toNat ≤ b.micros.toNat⟩

instance : LT Timestamp := ⟨fun a b => a.micros.toNat < b.micros.toNat⟩

instance (a b : Timestamp) : Decidable (a ≤ b) :=
  inferInstanceAs (Decidable (a.micros.toNat ≤ b.micros.toNat))

instance (a b : Timestamp) : Decidable (a < b) :=
  inferInstanceAs (Decidable (a.micros.toNat < b.micros.toNat))

instance : Min Timestamp := ⟨fun a b => if a ≤ b then a else b⟩

instance : ToString Timestamp := ⟨fun t => toString t.micros.toNat ++ "us"⟩

/-- The last moment that can be written. -/
def last : Timestamp := ⟨18446744073709551615⟩

/-- The moment `n` microseconds after `t`, or the last one if that is later. -/
def addMicros (t : Timestamp) (n : Nat) : Timestamp :=
  ⟨UInt64.ofNat (min (t.micros.toNat + n) last.micros.toNat)⟩

instance : HAdd Timestamp Duration Timestamp := ⟨fun t d => t.addMicros d.micros⟩

/-- The microseconds from `earlier` to `t`, none if `earlier` is not earlier. -/
def since (t earlier : Timestamp) : Nat := t.micros.toNat - earlier.micros.toNat

end Timestamp

end ReliableMulticast
