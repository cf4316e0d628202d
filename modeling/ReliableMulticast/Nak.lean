import ReliableMulticast.SeqNum.Basic

/-!
# Repair requests

A negative acknowledgement (NAK) asks the sender for the packets of a range of numbers. `coalesce`
turns single numbers into as few requests as possible without changing their order.
-/

namespace ReliableMulticast

/-- Which timer made a request due. -/
inductive NakStage where
  /-- The wait for the packet itself ended. -/
  | initial
  /-- No confirmation came. -/
  | ncfRetry
  /-- A confirmed repair did not come. -/
  | dataRetry
  deriving DecidableEq, Repr

/-- A request for the packets from `first` to `last`, both included. -/
structure NakRequest where
  first : SeqNum
  last : SeqNum
  stage : NakStage
  deriving DecidableEq, Repr

namespace NakRequest

def single (s : SeqNum) (stage : NakStage) : NakRequest := ⟨s, s, stage⟩

def count (r : NakRequest) : Nat := r.first.gap r.last + 1

/-- The numbers asked for, in order. -/
def sequences (r : NakRequest) : List SeqNum := r.first.upTo r.last.next

/-- Puts one more number in front: into the first request if it continues there, else as its own. -/
def prepend (s : SeqNum) (stage : NakStage) : List NakRequest → List NakRequest
  | [] => [single s stage]
  | r :: rest =>
    if r.stage = stage ∧ s.next = r.first then { r with first := s } :: rest
    else single s stage :: r :: rest

/-- Joins neighbours of the same stage whose numbers follow each other. -/
def coalesce : List (SeqNum × NakStage) → List NakRequest
  | [] => []
  | (s, stage) :: rest => prepend s stage (coalesce rest)

end NakRequest

end ReliableMulticast
