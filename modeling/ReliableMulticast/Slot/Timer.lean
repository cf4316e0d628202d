import ReliableMulticast.Config
import ReliableMulticast.Nak
import ReliableMulticast.Slot.Basic

/-!
# What a slot does when its timer ends

Each of the three timers either makes one more request due and runs on, or ends the wait for good:
`expire` returns the slot with its next timer and the stage of the request, or no stage and no timer
if the packet is given up. The requests a packet may cost are limited: unconfirmed ones by the
configured retries, confirmed ones by `dataBudget`.
-/

namespace ReliableMulticast.Slot

/-- The largest value of a slot's counters; counting stops there. -/
def maxCount : Nat := 255

/-- Counts one more, up to `maxCount`. -/
def bump (n : Nat) : Nat := min (n + 1) maxCount

/-- The requests a confirmed repair may cost: the configured limit without those sent before the
confirmation, but never fewer than the configured least. -/
def dataBudget (c : WindowConfig) (s : Slot) : Nat :=
  max (c.maxNaks.toNat - (s.naks - s.dataRetries)) c.minNaks.toNat

/-- One more request, whose confirmation is waited for. -/
def awaitNcf (c : WindowConfig) (now : Timestamp) (s : Slot) : Slot :=
  { s with naks := bump s.naks, ncfExpiry := now + c.ncfWait, timer := some .waitNcf }

/-- The first wait ended: the packet is requested. -/
def expireBackOff (c : WindowConfig) (now : Timestamp) (s : Slot) : Slot :=
  { s.awaitNcf c now with state := if s.state = .backOff then .waitNcf else s.state }

/-- The wait for a confirmation ended without one. -/
def expireNcf (c : WindowConfig) (now : Timestamp) (s : Slot) : Slot × Option NakStage :=
  let s := { s with ncfRetries := bump s.ncfRetries }
  if c.maxNcfRetries.toNat < s.ncfRetries ∨ c.maxNaks.toNat ≤ s.naks then
    ({ s with timer := none }, none)
  else
    (s.awaitNcf c now, some .ncfRetry)

/-- A confirmed repair did not come in time. -/
def expireData (c : WindowConfig) (now : Timestamp) (s : Slot) : Slot × Option NakStage :=
  if s.dataBudget c ≤ s.dataRetries then
    ({ s with timer := none }, none)
  else
    ({ s with
        dataRetries := s.dataRetries + 1
        naks := bump s.naks
        dataExpiry := now + c.dataWait
        timer := some .waitData },
      some .dataRetry)

/-- The slot after the given timer ended at `now`, with the stage of the request that is due. -/
def expire (c : WindowConfig) (now : Timestamp) (s : Slot) : Timer → Slot × Option NakStage
  | .backOff => (s.expireBackOff c now, some .initial)
  | .waitNcf => s.expireNcf c now
  | .waitData => s.expireData c now

/-- The slot after its request was confirmed at `now`: the wait for the data begins anew, and the
requests sent in it are counted from zero unless it was under way already. -/
def confirm (c : WindowConfig) (now : Timestamp) (s : Slot) : Slot :=
  let s := { s with dataExpiry := now + c.dataWait }
  if s.timer = some .waitData then s
  else
    { s with
      state := if s.state = .haveParity then .haveParity else .waitData
      dataRetries := 0
      timer := some .waitData }

end ReliableMulticast.Slot
