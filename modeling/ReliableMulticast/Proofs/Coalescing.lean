import Mathlib.Data.List.Chain
import ReliableMulticast.Proofs.Firing

/-!
# Requests as few as possible

What a window asks of the sender is joined into requests for whole ranges. Nothing is lost or made up
on the way: the ranges, written out one after the other, are again what was due, also where a range
goes over the end of the number space (`expand_coalesce`). And no two neighbours could have been
joined (`isChain_coalesce`).
-/

namespace ReliableMulticast

namespace NakRequest

variable {due : List (SeqNum × NakStage)}

/-- The request goes on where the other one ends, in the same stage. -/
def Follows (r' r : NakRequest) : Prop := r.stage = r'.stage ∧ r.last.next = r'.first

/-- The requests stand for the numbers that were due, and are no more than they must be. -/
structure Joins (due : List (SeqNum × NakStage)) (requests : List NakRequest) : Prop where
  expand : requests.flatMap NakRequest.expand = due
  count : ∀ r ∈ requests, 0 < r.count ∧ r.count = r.sequences.length
  maximal : requests.IsChain fun r r' => ¬ r'.Follows r

/-- Only the first request changes when one more number is due in front, and it is continued whenever
that is possible. -/
theorem isChain_prepend {requests : List NakRequest}
    (h : requests.IsChain fun r r' => ¬ r'.Follows r) (s : SeqNum) (stage : NakStage) :
    (prepend s stage requests).IsChain fun r r' => ¬ r'.Follows r := by
  cases requests with
  | nil => exact .singleton _
  | cons r rest =>
    rw [prepend]
    split
    next joins =>
      rw [List.isChain_cons] at h ⊢
      exact h
    next apart =>
      refine .cons_cons ?_ h
      rintro ⟨hstage, hnext⟩
      exact apart ⟨hstage.symm, hnext⟩

theorem isChain_coalesce : ∀ due : List (SeqNum × NakStage),
    (coalesce due).IsChain fun r r' => ¬ r'.Follows r
  | [] => .nil
  | (s, stage) :: rest => isChain_prepend (isChain_coalesce rest) s stage

/-- Numbers are joined faithfully as long as no stage has more of them than half of the number space. -/
theorem joins_coalesce (few : ∀ stage, due.countP (·.2 = stage) ≤ 2147483648) :
    Joins due (coalesce due) where
  expand := expand_coalesce few
  count := by
    intro r hr
    have hcount : r.count ≤ 2147483648 := (count_le_of_mem_coalesce r hr).trans (few r.stage)
    rw [sequences_eq_run hcount, SeqNum.length_run]
    exact ⟨Nat.succ_pos _, rfl⟩
  maximal := isChain_coalesce due

end NakRequest

namespace Window

/-- The requests that a list of numbers is joined into ask for these numbers in their order, each in
its stage, and are as few as the order allows; so are the requests of a sweep, whenever it happens. -/
theorem coalesce_exact :
    (∀ due : List (SeqNum × NakStage), due.length < 2147483648 →
      NakRequest.Joins due (NakRequest.coalesce due)) ∧
    ∀ (tsi : Tsi) (config : ValidConfig) (ops : List Op) (now : Timestamp),
      ((create tsi config).run ops).isGone = false →
      NakRequest.Joins ((((create tsi config).run ops).endAllDue now).2.filterMap Ended.nak?)
        (((create tsi config).run ops).sweep now).2 := by
  refine ⟨fun due few => ?_, fun tsi config ops now live => ?_⟩
  · exact NakRequest.joins_coalesce fun stage => List.countP_le_length.trans (Nat.le_of_lt few)
  · have timed := timed_run tsi config ops
    have sound := (sound_run (sound_create tsi config) live).1
    have hsize := sound.size_le
    rw [sweep, whileLive_of_live live, naks_sweepAll timed sound]
    exact NakRequest.joins_coalesce fun stage =>
      (timed.countP_nak?_endAllDue sound now stage).trans (by omega)

/-- A range over the end of the number space, a number that is due again, and another stage. -/
def wrappedDue : List (SeqNum × NakStage) :=
  [(4294967295, .ncfRetry), (0, .ncfRetry), (0, .ncfRetry), (1, .initial)]

/-- Two packets between two others are missing and asked for together. -/
def missingHistory : List Op := [smallPush 4294967294 none 1, smallPush 1 none 2]

theorem coalesce_exact_small :
    wrappedDue.length < 2147483648 ∧
      NakRequest.coalesce wrappedDue =
        [⟨4294967295, 0, .ncfRetry⟩, ⟨0, 0, .ncfRetry⟩, ⟨1, 1, .initial⟩] ∧
      NakRequest.Joins wrappedDue (NakRequest.coalesce wrappedDue) ∧
      ((create smallTsi smallConfig).run missingHistory).isGone = false ∧
      (((create smallTsi smallConfig).run missingHistory).sweep 10).2 =
        [⟨4294967295, 0, .initial⟩, ⟨4294967295, 0, .ncfRetry⟩] ∧
      NakRequest.Joins
        ((((create smallTsi smallConfig).run missingHistory).endAllDue 10).2.filterMap Ended.nak?)
        (((create smallTsi smallConfig).run missingHistory).sweep 10).2 := by
  have few : wrappedDue.length < 2147483648 := by decide
  have live : ((create smallTsi smallConfig).run missingHistory).isGone = false := by decide +kernel
  exact ⟨few, by decide +kernel, coalesce_exact.1 wrappedDue few, live, by decide +kernel,
    coalesce_exact.2 smallTsi smallConfig missingHistory 10 live⟩

end Window

end ReliableMulticast
