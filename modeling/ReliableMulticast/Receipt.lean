import ReliableMulticast.Group

/-!
# Receipts

What a window answers to a packet: what became of it, whether it began an APDU, whether it was
stored, and the transmission group that can be repaired now, if it made one repairable.
-/

namespace ReliableMulticast

/-- What a window did with its input. -/
inductive Outcome where
  | ok
  /-- The lead moved and slots were made for packets that did not arrive. -/
  | createdPlaceholder
  | filledPlaceholder
  | advancedWindow
  | notInWindow
  | windowUndefined
  | duplicate
  /-- The packet's number, or a member of its group, was given up before. -/
  | apduLost
  | malformedApdu
  | unknown
  /-- The window was shut down. -/
  | windowGone
  deriving DecidableEq, Repr

namespace Outcome

def text : Outcome → String
  | .ok => "PGM_RXW_OK"
  | .createdPlaceholder => "PGM_RXW_CREATED_PLACEHOLDER"
  | .filledPlaceholder => "PGM_RXW_FILLED_PLACEHOLDER"
  | .advancedWindow => "PGM_RXW_ADVANCED_WINDOW"
  | .notInWindow => "PGM_RXW_NOT_IN_TXW"
  | .windowUndefined => "PGM_RXW_WINDOW_UNDEFINED"
  | .duplicate => "PGM_RXW_DUPLICATE"
  | .apduLost => "PGM_RXW_APDU_LOST"
  | .malformedApdu => "PGM_RXW_MALFORMED_APDU"
  | .unknown => "PGM_RXW_UNKNOWN"
  | .windowGone => "PGM_RXW_WINDOW_GONE"

instance : ToString Outcome := ⟨text⟩

/-- All outcomes, in order of declaration. -/
def all : List Outcome :=
  [.ok, .createdPlaceholder, .filledPlaceholder, .advancedWindow, .notInWindow, .windowUndefined,
    .duplicate, .apduLost, .malformedApdu, .unknown, .windowGone]

end Outcome

structure Receipt where
  outcome : Outcome
  /-- The packet is the first one of its APDU. -/
  newApdu : Bool
  /-- The packet was stored in a slot. -/
  consumed : Bool
  /-- The group that has enough parity for its missing members now. -/
  repairable : Option Group

namespace Receipt

/-- A receipt that says no more than its outcome. -/
def of (o : Outcome) : Receipt := ⟨o, false, false, none⟩

/-- The two flags as bits: 1 for a new APDU, 2 for a stored packet. -/
def bits (r : Receipt) : Nat := r.newApdu.toNat + 2 * r.consumed.toNat

/-- The receipt with the given flag bits; higher bits mean nothing. -/
def ofBits (o : Outcome) (bits : Nat) : Receipt := ⟨o, bits.testBit 0, bits.testBit 1, none⟩

end Receipt

end ReliableMulticast
