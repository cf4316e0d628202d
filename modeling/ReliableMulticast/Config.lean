import ReliableMulticast.Time

/-!
# Configuration

The parameters of a receive window and of a receiver, and what makes them usable. A parameter set
is checked in a fixed order and the first fault is the one reported; `fault?_eq_none_iff` says that
a set without a fault is exactly a `Valid` one, so the windows and receivers of the other modules
take their parameters together with that proof.
-/

namespace ReliableMulticast

/-- The most slots a window may have. -/
def maxCapacity : Nat := 1073741824

/-- The most packets a transmission group may have. -/
def maxGroupSize : Nat := 128

/-- Group sizes are the powers of two up to the largest group. -/
def IsGroupSize (n : Nat) : Prop := n = 1 <<< n.log2 ∧ n ≤ maxGroupSize

instance (n : Nat) : Decidable (IsGroupSize n) := inferInstanceAs (Decidable (_ ∧ _))

/-- Why a parameter set is refused. -/
inductive ConfigError where
  | noPayload
  | capacity (given : Nat)
  | groupSize (given : Nat)
  | groupExceedsCapacity (groupSize capacity : Nat)
  | noNaks
  | nakLimits (least most : Nat)
  | zeroInterval
  | zeroTick
  | zeroRead
  deriving DecidableEq, Repr

def ConfigError.message : ConfigError → String
  | .noPayload => "max_tpdu must be positive"
  | .capacity n => s!"window capacity must be between 1 and {maxCapacity}, was {n}"
  | .groupSize n =>
    s!"transmission group size must be a power of two no bigger than {maxGroupSize}, was {n}"
  | .groupExceedsCapacity n c =>
    s!"transmission group size {n} does not fit into a window of capacity {c}"
  | .noNaks => "max_nak_transmit_count must be positive"
  | .nakLimits least most =>
    s!"min_nak_transmit_count {least} exceeds max_nak_transmit_count {most}"
  | .zeroInterval => "NAK intervals must be positive"
  | .zeroTick => "tick interval must be positive"
  | .zeroRead => "max_messages_per_read must be positive"

/-- A chain of checks finds nothing exactly if its first check and the rest find nothing. -/
theorem none_of_ite_iff {p : Prop} [Decidable p] {e : ConfigError} {rest : Option ConfigError} :
    (if p then some e else rest) = none ↔ ¬ p ∧ rest = none := by
  by_cases h : p
  · rw [if_pos h]
    exact ⟨fun h => absurd h (Option.some_ne_none e), fun ⟨hp, _⟩ => absurd h hp⟩
  · rw [if_neg h]
    exact ⟨fun hr => ⟨h, hr⟩, fun hr => hr.2⟩

/-! ### Windows -/

/-- The parameters of a receive window. -/
structure WindowConfig where
  /-- The longest payload a packet may carry. -/
  maxTpdu : UInt16
  /-- The packets of a transmission group until the sender announces another size. -/
  groupSize : UInt32
  /-- The most slots the window holds at a time. -/
  capacity : UInt32
  /-- The requests that a confirmed repair gets at least. -/
  minNaks : UInt8
  /-- The requests after which a repair is given up. -/
  maxNaks : UInt8
  /-- The requests that are repeated for want of a confirmation. -/
  maxNcfRetries : UInt8
  /-- The wait before the first request. -/
  backOff : Duration
  /-- The wait for a confirmation. -/
  ncfWait : Duration
  /-- The wait for repair data once the request is confirmed. -/
  dataWait : Duration
  deriving DecidableEq, Repr

namespace WindowConfig

/-- The parameters that a window can work with. -/
structure Valid (c : WindowConfig) : Prop where
  maxTpdu_pos : c.maxTpdu ≠ 0
  capacity_pos : c.capacity ≠ 0
  capacity_le : c.capacity.toNat ≤ maxCapacity
  groupSize : IsGroupSize c.groupSize.toNat
  groupSize_le : c.groupSize.toNat ≤ c.capacity.toNat
  maxNaks_pos : c.maxNaks ≠ 0
  minNaks_le : c.minNaks.toNat ≤ c.maxNaks.toNat
  backOff_pos : c.backOff.nanos ≠ 0
  ncfWait_pos : c.ncfWait.nanos ≠ 0
  dataWait_pos : c.dataWait.nanos ≠ 0

/-- The first fault of a parameter set. -/
def fault? (c : WindowConfig) : Option ConfigError :=
  if c.maxTpdu = 0 then some .noPayload
  else if c.capacity = 0 ∨ maxCapacity < c.capacity.toNat then some (.capacity c.capacity.toNat)
  else if ¬ IsGroupSize c.groupSize.toNat then some (.groupSize c.groupSize.toNat)
  else if c.capacity.toNat < c.groupSize.toNat then
    some (.groupExceedsCapacity c.groupSize.toNat c.capacity.toNat)
  else if c.maxNaks = 0 then some .noNaks
  else if c.maxNaks.toNat < c.minNaks.toNat then some (.nakLimits c.minNaks.toNat c.maxNaks.toNat)
  else if c.backOff.nanos = 0 ∨ c.ncfWait.nanos = 0 ∨ c.dataWait.nanos = 0 then some .zeroInterval
  else none

theorem fault?_eq_none_iff {c : WindowConfig} : c.fault? = none ↔ c.Valid := by
  simp only [fault?, none_of_ite_iff, not_or, Nat.not_lt, Decidable.not_not]
  exact ⟨fun ⟨h1, ⟨h2, h3⟩, h4, h5, h6, h7, ⟨h8, h9, h10⟩, _⟩ =>
      ⟨h1, h2, h3, h4, h5, h6, h7, h8, h9, h10⟩,
    fun ⟨h1, h2, h3, h4, h5, h6, h7, h8, h9, h10⟩ =>
      ⟨h1, ⟨h2, h3⟩, h4, h5, h6, h7, ⟨h8, h9, h10⟩, trivial⟩⟩

instance (c : WindowConfig) : Decidable c.Valid :=
  decidable_of_iff (c.fault? = none) fault?_eq_none_iff

end WindowConfig

/-- Parameters that a window can work with. -/
def ValidConfig : Type := { c : WindowConfig // c.Valid }

/-- The parameters as valid ones, or their first fault. -/
def WindowConfig.validate (c : WindowConfig) : Except ConfigError ValidConfig :=
  match h : c.fault? with
  | some e => .error e
  | none => .ok ⟨c, fault?_eq_none_iff.1 h⟩

/-! ### Receivers -/

/-- The parameters of a receiver. -/
structure ReceiverConfig where
  /-- The time between two rounds over all windows. -/
  tick : Duration
  /-- The most messages that are taken out of a window at once. -/
  maxRead : Nat
  deriving DecidableEq, Repr

namespace ReceiverConfig

/-- The parameters that a receiver can work with. -/
structure Valid (c : ReceiverConfig) : Prop where
  tick_pos : c.tick.nanos ≠ 0
  maxRead_pos : c.maxRead ≠ 0

/-- The first fault of a parameter set. -/
def fault? (c : ReceiverConfig) : Option ConfigError :=
  if c.tick.nanos = 0 then some .zeroTick
  else if c.maxRead = 0 then some .zeroRead
  else none

theorem fault?_eq_none_iff {c : ReceiverConfig} : c.fault? = none ↔ c.Valid := by
  simp only [fault?, none_of_ite_iff]
  exact ⟨fun ⟨h1, h2, _⟩ => ⟨h1, h2⟩, fun ⟨h1, h2⟩ => ⟨h1, h2, trivial⟩⟩

instance (c : ReceiverConfig) : Decidable c.Valid :=
  decidable_of_iff (c.fault? = none) fault?_eq_none_iff

end ReceiverConfig

/-- Parameters that a receiver can work with. -/
def ValidReceiverConfig : Type := { c : ReceiverConfig // c.Valid }

/-- The parameters as valid ones, or their first fault. -/
def ReceiverConfig.validate (c : ReceiverConfig) : Except ConfigError ValidReceiverConfig :=
  match h : c.fault? with
  | some e => .error e
  | none => .ok ⟨c, fault?_eq_none_iff.1 h⟩

end ReliableMulticast
