import ReliableMulticast.Proofs.Front
import ReliableMulticast.Proofs.HalfTurn
import ReliableMulticast.Proofs.Pointers
import ReliableMulticast.Proofs.Slotwise

/-!
# The loops at the front end

`resolve` is given a number of steps, and the scan and the loss of an APDU run over lists. Here the
loops are told turn by turn and without such bounds, and each of them is shown to end: the loop at
the front (`Resolves`) because every turn leaves less to do, the scan of an APDU (`Scans`), the
search for its last fragment (`Searches`) and the walk over a range of numbers (`SeqNum.Walks`)
because every turn moves on by one number. What the loop at the front leaves alone is what one turn
of it leaves alone (`Divided.onward_resolveStep`).
-/

namespace ReliableMulticast

namespace Window

variable {w w' v : Window} {i j n : Nat} {first s : SeqNum}

/-! ### The loop at the front -/

/-- The loop at the front takes `turns` turns from `w` and leaves `w'`. It ends behind the lead, or
in a turn that finds that the front has to wait. -/
inductive Resolves : Nat → Window → Window → Prop
  | past {w : Window} (past : w.commitLead.After w.lead) : Resolves 0 w w
  | wait {w : Window} (inside : w.commitLead.BeforeOrEq w.lead) (rests : w.AtRest) : Resolves 1 w w
  | turn {turns : Nat} {w v w' : Window} (inside : w.commitLead.BeforeOrEq w.lead)
      (step : w.resolveStep? = some v) (later : Resolves turns v w') : Resolves (turns + 1) w w'

/-- The loop at the front comes to the window. -/
def Passes : Window → Window → Prop := Relation.ReflTransGen fun w v => w.resolveStep? = some v

theorem passes_resolve (w : Window) : w.Passes w.resolve :=
  resolveSteps_of_step (R := Passes) (fun _ => .refl) .trans (fun hstep => .single hstep) _ w

theorem beforeOrEq_lead_iff (inside : w.place s ≤ w.slots.size) :
    s.BeforeOrEq w.lead ↔ w.place s < w.slots.size := by
  have hsize := w.slots.size_le_maxRing
  have hgap := gap_next_of_place inside
  have hn := w.next.toNat_lt
  have hs := s.toNat_lt
  rw [SeqNum.BeforeOrEq, after_lead_iff]
  simp only [SeqNum.gap_eq] at hgap ⊢
  omega

theorem beforeOrEq_lead_of_get? {slot : Slot} (found : w.slots.get? s = some slot) :
    s.BeforeOrEq w.lead :=
  have hlt := place_lt_of_get? found
  (beforeOrEq_lead_iff (Nat.le_of_lt hlt)).2 hlt

theorem atRest_of_past (past : w.commitLead.After w.lead) : w.AtRest :=
  atRest_iff.2 fun _ found => absurd past (beforeOrEq_lead_of_get? found)

/-- A front within the window leaves something to do. -/
theorem unsettled_pos (inside : w.commitLead.BeforeOrEq w.lead) : 0 < w.unsettled := by
  have hgap : w.commitLead.gap w.next ≠ 0 := by
    intro hzero
    refine inside (after_lead_iff.2 ?_)
    rw [SeqNum.gap_eq_zero_iff.1 hzero, SeqNum.gap_self]
    decide
  unfold unsettled
  split <;> omega

/-- The loop at the front ends, as no turn leaves as much to do as there was before. -/
theorem resolves_resolveSteps {steps : Nat} (enough : w.unsettled ≤ steps) :
    ∃ turns, turns ≤ w.unsettled ∧ Resolves turns w (resolveSteps steps w) := by
  induction steps generalizing w with
  | zero =>
    refine ⟨0, Nat.zero_le _, .past ?_⟩
    by_contra inside
    have := unsettled_pos inside
    omega
  | succ steps ih =>
    rw [resolveSteps]
    by_cases past : w.commitLead.After w.lead
    · rw [show w.resolveStep? = none from atRest_of_past past]
      exact ⟨0, Nat.zero_le _, .past past⟩
    · split
      next hrest => exact ⟨1, unsettled_pos past, .wait past hrest⟩
      next v hstep =>
        have hless := unsettled_resolveStep hstep
        obtain ⟨turns, hturns, later⟩ := ih (w := v) (by omega)
        exact ⟨turns + 1, by omega, .turn past hstep later⟩

/-! ### The scan of an APDU -/

/-- The scan of the APDU of `total` bytes that starts at `first` takes `turns` more turns when it
comes to `s` with `received` bytes, and finds what the scan of the slots from `s` on finds. -/
inductive Scans (w : Window) (first : SeqNum) (total : Nat) :
    Nat → SeqNum → Nat → ApduScan → Prop
  | outside {s : SeqNum} {received : Nat} (outside : w.slots.get? s = none) :
      Scans w first total 1 s received .incomplete
  | lost {s : SeqNum} {received : Nat} {slot : Slot} (found : w.slots.get? s = some slot)
      (lost : slot.state = .lost) : Scans w first total 1 s received .lost
  | missing {s : SeqNum} {received : Nat} {slot : Slot} (found : w.slots.get? s = some slot)
      (pending : slot.state.repairPending) : Scans w first total 1 s received .incomplete
  | stray {s : SeqNum} {received : Nat} {slot : Slot} (found : w.slots.get? s = some slot)
      (held : slot.state.hasData) (stray : ¬ slot.Continues first total received) :
      Scans w first total 1 s received .malformed
  | full {s : SeqNum} {received : Nat} {slot : Slot} (found : w.slots.get? s = some slot)
      (held : slot.state.hasData) (continues : slot.Continues first total received)
      (full : received + slot.payloadSize = total) : Scans w first total 1 s received (.complete 1)
  | exceeds {s : SeqNum} {received : Nat} {slot : Slot} (found : w.slots.get? s = some slot)
      (held : slot.state.hasData) (continues : slot.Continues first total received)
      (exceeds : total < received + slot.payloadSize) : Scans w first total 1 s received .malformed
  | turn {turns : Nat} {s : SeqNum} {received : Nat} {slot : Slot} {scan : ApduScan}
      (found : w.slots.get? s = some slot) (held : slot.state.hasData)
      (continues : slot.Continues first total received)
      (short : received + slot.payloadSize < total)
      (later : Scans w first total turns s.next (received + slot.payloadSize) scan) :
      Scans w first total (turns + 1) s received scan.succ

/-- The scan ends at the end of the window at the latest. -/
theorem scans_slice (w : Window) (first : SeqNum) (total received : Nat) {s : SeqNum} {n : Nat}
    (hs : w.place s + n = w.slots.size) :
    ∃ turns, turns ≤ n + 1 ∧
      w.Scans first total turns s received
        (scanFragments first total received (w.slots.slice s n)) := by
  have hsize := w.slots.size_le_maxRing
  induction n generalizing s received with
  | zero =>
    refine ⟨1, Nat.le_refl _, .outside (SlotRing.get?_eq_none ?_)⟩
    rw [contains_iff_place]
    omega
  | succ n ih =>
    obtain ⟨slot, found⟩ := SlotRing.exists_get? (contains_iff_place.2 (show w.place s < _ by omega))
    rw [SlotRing.slice_succ found]
    rcases scanFragments_cases first total received slot (w.slots.slice s.next n) with
      ⟨held, continues⟩ | ⟨pending, hscan⟩ | ⟨lost, hscan⟩ | ⟨held, stray, hscan⟩
    · rw [scanFragments_of_continues held continues]
      split
      next full => exact ⟨1, by omega, .full found held continues full⟩
      next other =>
        split
        next exceeds => exact ⟨1, by omega, .exceeds found held continues exceeds⟩
        next under =>
          have hnext : w.place s.next = w.place s + 1 := w.place_add (by omega)
          obtain ⟨turns, hturns, later⟩ := ih (received + slot.payloadSize) (s := s.next) (by omega)
          exact ⟨turns + 1, by omega, .turn found held continues (by omega) later⟩
    · rw [hscan]
      exact ⟨1, by omega, .missing found pending⟩
    · rw [hscan]
      exact ⟨1, by omega, .lost found lost⟩
    · rw [hscan]
      exact ⟨1, by omega, .stray found held stray⟩

/-! ### The loss of an APDU -/

/-- The search for the last fragment after `s` of the APDU that starts at `first` takes `turns` more
turns when it comes to `x` and `last` is the latest one it met, and it ends with `latest`. -/
inductive Searches (w : Window) (first s : SeqNum) : Nat → SeqNum → SeqNum → SeqNum → Prop
  | past {x last : SeqNum} (reached : ¬ x.Before w.next) : Searches w first s 0 x last last
  | outside {x last : SeqNum} (before : x.Before w.next) (outside : w.slots.get? x = none) :
      Searches w first s 1 x last last
  /-- Data of another APDU. -/
  | other {x last : SeqNum} {slot : Slot} (before : x.Before w.next)
      (found : w.slots.get? x = some slot) (alien : slot.isFragmentOf first = false)
      (held : slot.state.hasData) (after : x.After s) : Searches w first s 1 x last last
  | member {turns : Nat} {x last latest : SeqNum} {slot : Slot} (before : x.Before w.next)
      (found : w.slots.get? x = some slot) (fragment : slot.isFragmentOf first)
      (later : Searches w first s turns x.next (if x.After last then x else last) latest) :
      Searches w first s (turns + 1) x last latest
  | skip {turns : Nat} {x last latest : SeqNum} {slot : Slot} (before : x.Before w.next)
      (found : w.slots.get? x = some slot) (alien : slot.isFragmentOf first = false)
      (passed : ¬ (slot.state.hasData ∧ x.After s))
      (later : Searches w first s turns x.next last latest) :
      Searches w first s (turns + 1) x last latest

/-- The fragments that the search meets among the numbers. -/
def fragmentsMet (w : Window) (first s : SeqNum) (numbers : List SeqNum) : List SeqNum :=
  (numbers.takeWhile fun x => w.slotIs x fun slot =>
    slot.isFragmentOf first || !(slot.state.hasData && x.After s)).filter fun x =>
      x.After s && w.slotIs x (·.isFragmentOf first)

section

variable {x : SeqNum} {slot : Slot} {numbers : List SeqNum}

theorem fragmentsMet_outside (outside : w.slots.get? x = none) :
    w.fragmentsMet first s (x :: numbers) = [] := by
  simp [fragmentsMet, slotIs, outside]

theorem fragmentsMet_other (found : w.slots.get? x = some slot)
    (alien : slot.isFragmentOf first = false) (held : slot.state.hasData) (after : x.After s) :
    w.fragmentsMet first s (x :: numbers) = [] := by
  simp [fragmentsMet, slotIs, found, alien, held, after]

theorem fragmentsMet_member (found : w.slots.get? x = some slot)
    (fragment : slot.isFragmentOf first) :
    w.fragmentsMet first s (x :: numbers) =
      if x.After s then x :: w.fragmentsMet first s numbers else w.fragmentsMet first s numbers := by
  by_cases after : x.After s <;> simp [fragmentsMet, slotIs, found, fragment, after]

theorem fragmentsMet_skip (found : w.slots.get? x = some slot)
    (alien : slot.isFragmentOf first = false) (passed : ¬ (slot.state.hasData ∧ x.After s)) :
    w.fragmentsMet first s (x :: numbers) = w.fragmentsMet first s numbers := by
  rw [not_and_or] at passed
  rcases passed with missing | before
  · simp [fragmentsMet, slotIs, found, alien, missing]
  · simp [fragmentsMet, slotIs, found, alien, before]

end

/-- The search goes on from the number `k` steps after its start; the latest fragment that it met
stands before that, unless it is the start. -/
theorem searches_from (first : SeqNum) {k c m : Nat} (hk : k + c = s.steps w.next)
    (hm : m < k ∨ m = 0 ∧ k = 0) :
    ∃ turns, turns ≤ c ∧ w.Searches first s turns (s + k) (s + m)
      ((w.fragmentsMet first s ((s + k).run c)).getLastD (s + m)) := by
  have hsteps := s.steps_le w.next
  induction c generalizing k m with
  | zero =>
    refine ⟨0, Nat.le_refl _, .past ?_⟩
    rw [SeqNum.add_before_iff (by omega)]
    omega
  | succ c ih =>
    have before : (s + k).Before w.next := (SeqNum.add_before_iff (by omega)).2 (by omega)
    have after : (s + k).After s ↔ 0 < k := by
      have := SeqNum.before_add_iff s (m := 0) (n := k) (by omega) (by omega)
      rwa [SeqNum.add_zero] at this
    have later : (s + k).After (s + m) ↔ m < k := SeqNum.before_add_iff s (by omega) (by omega)
    rw [SeqNum.run]
    cases found : w.slots.get? (s + k) with
    | none =>
      rw [fragmentsMet_outside found]
      exact ⟨1, by omega, .outside before found⟩
    | some slot =>
      cases fragment : slot.isFragmentOf first with
      | true =>
        rw [fragmentsMet_member found fragment, SeqNum.add_next]
        by_cases pos : 0 < k
        · obtain ⟨turns, hturns, search⟩ := ih (k := k + 1) (m := k) (by omega) (by omega)
          refine ⟨turns + 1, by omega, .member before found fragment ?_⟩
          rw [if_pos (after.2 pos), if_pos (later.2 (by omega)), List.getLastD_cons, SeqNum.add_next]
          exact search
        · obtain ⟨turns, hturns, search⟩ := ih (k := k + 1) (m := m) (by omega) (by omega)
          refine ⟨turns + 1, by omega, .member before found fragment ?_⟩
          rw [if_neg (mt after.1 pos), if_neg (by rw [later]; omega), SeqNum.add_next]
          exact search
      | false =>
        by_cases ends : slot.state.hasData ∧ (s + k).After s
        · rw [fragmentsMet_other found fragment ends.1 ends.2]
          exact ⟨1, by omega, .other before found fragment ends.1 ends.2⟩
        · obtain ⟨turns, hturns, search⟩ := ih (k := k + 1) (m := m) (by omega) (by omega)
          refine ⟨turns + 1, by omega, .skip before found fragment ends ?_⟩
          rw [fragmentsMet_skip found fragment ends, SeqNum.add_next]
          exact search

/-- A search that starts at `s` ends at the lead at the latest, and what it met last is the last of
all fragments that it met. -/
theorem searches_lastFragment (w : Window) (first s : SeqNum) :
    ∃ turns, turns ≤ s.steps w.next ∧ w.Searches first s turns s s (w.lastFragment first s s) := by
  have search := searches_from first (Nat.zero_add (s.steps w.next)) (.inr ⟨rfl, rfl⟩)
  rwa [SeqNum.add_zero] at search

theorem spreadStart_commitLead (inside : w.place w.commitLead < w.slots.size)
    (order : w.place w.commitTrail ≤ w.place w.commitLead) :
    w.spreadStart w.commitLead = w.commitLead := by
  have hsize := w.slots.size_le_maxRing
  have horder := SeqNum.before_iff_gap_lt w.trail (b := w.commitLead) (c := w.commitTrail)
    (by unfold place at *; omega) (by unfold place at *; omega)
  exact if_neg fun before => Nat.not_lt.2 order (horder.1 before)

/-- A loss at the front spreads over numbers from the front to the lead. -/
theorem spread_front (inside : w.place w.commitLead < w.slots.size)
    (order : w.place w.commitTrail ≤ w.place w.commitLead) :
    ∃ m, m ≤ w.commitLead.gap w.next ∧ w.spread w.commitLead w.commitLead = w.commitLead.run m := by
  have hgap := gap_next_of_place (Nat.le_of_lt inside)
  have hlt := w.commitLead.gap_lt w.next
  have hstart := spreadStart_commitLead inside order
  obtain ⟨p, hp, hend⟩ : ∃ p, p < w.commitLead.gap w.next ∧
      w.spreadEnd w.commitLead w.commitLead = w.commitLead + p := by
    rcases w.spreadEnd_eq_or_mem w.commitLead w.commitLead with he | ⟨-, hmem, -⟩
    · exact ⟨0, by omega, by rw [he, SeqNum.add_zero]⟩
    · rw [hstart, SeqNum.upTo, SeqNum.mem_run] at hmem
      obtain ⟨p, hp, he⟩ := hmem
      exact ⟨p, Nat.lt_of_lt_of_le hp (w.commitLead.steps_le_gap w.next), he⟩
  refine ⟨w.commitLead.steps (w.commitLead + p).next, ?_, ?_⟩
  · refine Nat.le_trans (SeqNum.steps_le_gap ..) ?_
    rw [SeqNum.add_next, SeqNum.gap_add _ (by omega)]
    omega
  · rw [spread, hstart, hend, SeqNum.upTo]

/-- The loops inside a turn of the loop at the front end: the scan of the APDU there and, if it is
given up, the search for its last fragment and the walk over its numbers. -/
structure TurnEnds (w : Window) : Prop where
  scan : ∀ total, ∃ turns, turns ≤ w.commitLead.gap w.lead.next + 1 ∧
    w.Scans w.commitLead total turns w.commitLead 0 (w.scanApdu w.commitLead total)
  search : ∃ turns, turns ≤ w.commitLead.gap w.lead.next ∧
    (w.giveUpSlot w.commitLead).Searches w.commitLead w.commitLead turns
      (w.spreadStart w.commitLead) w.commitLead (w.spreadEnd w.commitLead w.commitLead)
  walk : (w.spread w.commitLead w.commitLead).length ≤ w.commitLead.gap w.lead.next ∧
    SeqNum.Walks (w.spreadEnd w.commitLead w.commitLead).next (w.spreadStart w.commitLead)
      (w.spread w.commitLead w.commitLead)

theorem turnEnds (inside : w.place w.commitLead < w.slots.size)
    (order : w.place w.commitTrail ≤ w.place w.commitLead) : w.TurnEnds := by
  have hnext : w.lead.next = w.next := SeqNum.prev_next _
  have hgap := gap_next_of_place (Nat.le_of_lt inside)
  refine ⟨fun total => ?_, ?_, ?_, SeqNum.walks_upTo ..⟩
  · rw [hnext, scanApdu, slotsFrom_eq_slice (contains_iff_place.2 inside)]
    exact scans_slice w w.commitLead total 0 (by omega)
  · obtain ⟨turns, hturns, search⟩ :=
      (w.giveUpSlot w.commitLead).searches_lastFragment w.commitLead w.commitLead
    rw [next_of_frame_eq (frame_giveUpSlot w w.commitLead)] at hturns
    rw [hnext, spreadEnd, spreadStart_commitLead inside order]
    exact ⟨turns, Nat.le_trans hturns (SeqNum.steps_le_gap ..), search⟩
  · obtain ⟨m, hm, hspread⟩ := spread_front inside order
    rwa [hnext, hspread, SeqNum.length_run]

/-! ### What a turn leaves alone -/

/-- Nothing but the front has moved, and that forward and not past the lead, and no slot before
`commitTrail` is another one. -/
structure Onward (w : Window) (i j n : Nat) (w' : Window) : Prop where
  frame : w'.frame = { w.frame with commitLead := w'.commitLead }
  divided : ∃ k, j ≤ k ∧ k ≤ n ∧ w'.Divided i k n
  behind : ∀ k, k < i → w'.slots.get? (w.trail + k) = w.slots.get? (w.trail + k)

namespace Divided

theorem size_eq (h : w.Divided i j n) : w.slots.size = n := by
  have hsize := w.slots.size_le_maxRing
  have hcap : w.capacity ≤ 2147483648 := w.slots.capacity_le
  have hfits := h.fits
  have hnext : w.trail + w.slots.size = w.trail + n := (SeqNum.prev_next _).symm.trans h.lead
  exact (SeqNum.add_inj (by omega) (by omega)).1 hnext

theorem place_add (h : w.Divided i j n) {k : Nat} (hk : k ≤ n) : w.place (w.trail + k) = k := by
  have hsize := w.slots.size_le_maxRing
  have hn := h.size_eq
  exact SeqNum.gap_add _ (by omega)

theorem place_commitTrail (h : w.Divided i j n) : w.place w.commitTrail = i := by
  rw [h.commitTrail, h.place_add (Nat.le_trans h.inner h.outer)]

theorem place_commitLead (h : w.Divided i j n) : w.place w.commitLead = j := by
  rw [h.commitLead, h.place_add h.outer]

/-- Giving slots up from `commitTrail` on leaves the numbers of a window where they are. -/
theorem of_lost (h : w.Divided i j n) (hf : w'.frame = w.frame)
    (hslots : ∀ k new, k < n → w'.slots.get? (w.trail + k) = some new →
      w.slots.get? (w.trail + k) = some new ∨ i ≤ k ∧ new.state = .lost) : w'.Divided i j n := by
  have htrail : w'.trail = w.trail := congrArg Frame.trail hf
  have hcapacity : w'.capacity = w.capacity := congrArg Frame.capacity hf
  have hlead : w'.lead.next = w.lead.next :=
    (SeqNum.prev_next _).trans ((next_of_frame_eq hf).trans (SeqNum.prev_next _).symm)
  refine ⟨h.inner, h.outer, hcapacity.symm ▸ h.fits, ?_, ?_, ?_, ?_, ?_, ?_, ?_, ?_⟩
  · rw [htrail, show w'.commitTrail = w.commitTrail from congrArg Frame.commitTrail hf, h.commitTrail]
  · rw [htrail, show w'.commitLead = w.commitLead from congrArg Frame.commitLead hf, h.commitLead]
  · rw [htrail, hlead, h.lead]
  · intro k hk
    obtain ⟨slot, found, -⟩ := h.slot k hk
    obtain ⟨new, hnew⟩ :=
      SlotRing.exists_get? ((contains_of_frame_eq hf).2 (contains_of_get? found))
    rw [htrail]
    exact ⟨new, hnew, SlotRing.sequence_of_get? hnew⟩
  · intro x new hnew
    obtain ⟨slot, found⟩ :=
      SlotRing.exists_get? ((contains_of_frame_eq hf).1 (contains_of_get? hnew))
    rw [htrail]
    exact h.tracked x slot found
  · intro k new hk hnew
    have := h.inner
    have := h.outer
    rw [htrail] at hnew
    rcases hslots k new (by omega) hnew with same | ⟨-, lost⟩
    · exact h.behind k new hk same
    · exact .inr (.inr lost)
  · intro k new hi hk hnew
    have := h.outer
    rw [htrail] at hnew
    rcases hslots k new (by omega) hnew with same | ⟨-, lost⟩
    · exact h.readable k new hi hk same
    · exact .inr lost
  · intro k new hi hk hnew
    rw [htrail] at hnew
    rcases hslots k new hk hnew with same | ⟨-, lost⟩
    · exact h.ahead k new hi hk same
    · simp [lost]

/-- Passing slots that are held or given up leaves everything where it is but the front. -/
theorem passFront (h : w.Divided i j n) {count : Nat} (inside : j + count ≤ n)
    (settled : ∀ k slot, k < count → w.slots.get? (w.commitLead + k) = some slot →
      slot.state.hasData ∨ slot.state = .lost) : (w.passFront count).Divided i (j + count) n := by
  refine { h with
    inner := Nat.le_trans h.inner (Nat.le_add_right j count)
    outer := inside
    commitLead := ?_
    readable := fun k slot hi hk found => ?_ }
  · change w.commitLead + count = w.trail + _
    rw [h.commitLead, SeqNum.add_add]
  · change w.slots.get? (w.trail + k) = some slot at found
    by_cases hlt : k < j
    · exact h.readable k slot hi hlt found
    · have undelivered := h.ahead k slot hi (by omega) found
      rw [← Nat.add_sub_cancel' (Nat.le_of_not_lt hlt), ← SeqNum.add_add, ← h.commitLead] at found
      have hstate := settled (k - j) slot (by omega) found
      revert undelivered hstate
      cases slot.state <;> decide

/-- What is given up at the front lies from `commitTrail` on. -/
theorem le_of_takesAlong (h : w.Divided i j n) {slot : Slot} {f : Fragment} {k : Nat}
    (found : w.slots.get? w.commitLead = some slot) (fragment : slot.fragment = some f)
    (here : f.apduFirst = w.commitLead) (hk : k < n)
    (along : w.TakesAlong w.commitLead (w.trail + k)) : i ≤ k := by
  have hsize := w.slots.size_le_maxRing
  have hn := h.size_eq
  have hj := h.place_commitLead
  have inside := place_lt_of_get? found
  have hinner := h.inner
  rcases along with front | ⟨slot', f', _, found', fragment', hmem, -⟩
  · rw [h.commitLead, SeqNum.add_inj (by omega) (by omega)] at front
    omega
  · obtain rfl := Option.some.inj (found.symm.trans found')
    obtain rfl := Option.some.inj (fragment.symm.trans fragment')
    obtain ⟨m, hm, hspread⟩ := spread_front inside (by rw [h.place_commitTrail]; omega)
    rw [here, hspread, SeqNum.mem_run] at hmem
    obtain ⟨p, hp, he⟩ := hmem
    rw [gap_next_of_place (Nat.le_of_lt inside)] at hm
    rw [h.commitLead, SeqNum.add_add, SeqNum.add_inj (by omega) (by omega)] at he
    omega

/-- Giving slots up from `commitTrail` on changes none before it. -/
theorem onward_of_lost (h : w.Divided i j n) (hf : w'.frame = w.frame)
    (hslots : ∀ k new, k < n → w'.slots.get? (w.trail + k) = some new →
      w.slots.get? (w.trail + k) = some new ∨ i ≤ k ∧ new.state = .lost) : w.Onward i j n w' := by
  refine ⟨?_, ⟨j, Nat.le_refl j, h.outer, h.of_lost hf hslots⟩, fun k hk => ?_⟩
  · rw [hf, show w'.commitLead = w.commitLead from congrArg Frame.commitLead hf]
    rfl
  · have hinner := h.inner
    have houter := h.outer
    obtain ⟨slot, found, -⟩ := h.slot k (by omega)
    obtain ⟨new, hnew⟩ :=
      SlotRing.exists_get? ((contains_of_frame_eq hf).2 (contains_of_get? found))
    rcases hslots k new (by omega) hnew with same | ⟨hle, -⟩
    · rw [hnew, same]
    · omega

theorem onward_loseFront (h : w.Divided i j n) {slot : Slot} {f : Fragment}
    (found : w.slots.get? w.commitLead = some slot) (fragment : slot.fragment = some f)
    (here : f.apduFirst = w.commitLead) : w.Onward i j n (w.loseApdu w.commitLead) := by
  refine h.onward_of_lost (frame_loseApdu w _) fun k new hk hnew => ?_
  obtain ⟨old, hold, rfl | ⟨along, rfl⟩⟩ := get?_loseApdu_cases hnew
  · exact .inl hold
  · exact .inr ⟨h.le_of_takesAlong found fragment here hk along, old.state_lose⟩

theorem onward_passFront (h : w.Divided i j n) {count : Nat}
    (inside : w.place w.commitLead + count ≤ w.slots.size)
    (settled : ∀ k slot, k < count → w.slots.get? (w.commitLead + k) = some slot →
      slot.state.hasData ∨ slot.state = .lost) : w.Onward i j n (w.passFront count) := by
  rw [h.place_commitLead, h.size_eq] at inside
  exact ⟨rfl, ⟨_, Nat.le_add_right j count, inside, h.passFront inside settled⟩, fun _ _ => rfl⟩

theorem onward_passFront_one (h : w.Divided i j n) {slot : Slot}
    (found : w.slots.get? w.commitLead = some slot)
    (settled : slot.state.hasData ∨ slot.state = .lost) : w.Onward i j n (w.passFront 1) := by
  refine h.onward_passFront (place_lt_of_get? found) fun k other hk hother => ?_
  obtain rfl := Nat.lt_one_iff.1 hk
  rw [SeqNum.add_zero, found] at hother
  rwa [← Option.some.inj hother]

theorem onward_resolveStep (h : w.Divided i j n) (hstep : w.resolveStep? = some w') :
    w.Onward i j n w' := by
  cases frontStep hstep with
  | single found held alone => exact h.onward_passFront_one found (.inl (by rw [held]; rfl))
  | settled found settled =>
    exact h.onward_passFront_one found (settled.symm.imp_left SlotState.hasData_of_delivered)
  | whole found held fragment here scan =>
    obtain ⟨inside, fragments⟩ := slice_of_scan found scan
    refine h.onward_passFront inside fun k slot hk hslot => ?_
    rw [← SlotRing.getElem?_slice inside hk] at hslot
    exact .inl (fragments.held slot (List.mem_of_getElem? hslot)).1
  | orphan found held fragment elsewhere =>
    refine h.onward_of_lost (frame_giveUpSlot w _) fun k new hk hnew => ?_
    obtain ⟨old, hold, rfl | ⟨front, rfl⟩⟩ := get?_giveUpSlot_cases hnew
    · exact .inl hold
    · rw [← h.place_add (Nat.le_of_lt hk), front, h.place_commitLead]
      exact .inr ⟨h.inner, old.state_lose⟩
  | collapse found held fragment here broken => exact h.onward_loseFront found fragment here
  | garble found held fragment here broken =>
    have counted : { w with counters := w.counters.addMalformed }.Divided i j n := { h with }
    obtain ⟨hframe, hdivided, hbehind⟩ := counted.onward_loseFront found fragment here
    exact ⟨hframe, hdivided, hbehind⟩

/-- All turns together move nothing but the front, and that forward and not past the lead. -/
theorem onward_of_passes (h : w.Divided i j n) (hpasses : w.Passes v) : w.Onward i j n v := by
  induction hpasses with
  | refl => exact ⟨rfl, ⟨j, Nat.le_refl j, h.outer, h⟩, fun _ _ => rfl⟩
  | @tail u v _ hstep ih =>
    obtain ⟨hframe, ⟨k, hk, -, hu⟩, hbehind⟩ := ih
    obtain ⟨hframe', ⟨m, hm, hmn, hv⟩, hbehind'⟩ := hu.onward_resolveStep hstep
    have htrail : u.trail = w.trail := congrArg Frame.trail hframe
    refine ⟨?_, ⟨m, Nat.le_trans hk hm, hmn, hv⟩, fun p hp => ?_⟩
    · rw [hframe', hframe]
    · rw [← hbehind p hp, ← htrail, hbehind' p hp]

end Divided

/-- From every window that keeps the rules for its numbers and slots the loop at the front ends,
within two turns for each number from the front to the lead, and so do the loops inside its turns.
It moves nothing but the front, and that forward and not past the lead, changes no slot before
`commitTrail`, and has nothing to do when it is run again. -/
theorem resolve_ends (h : w.Divided i j n) :
    (∃ turns, turns ≤ 2 * w.commitLead.gap w.lead.next ∧ Resolves turns w w.resolve) ∧
      w.Passes w.resolve ∧
      (∀ v, w.Passes v → w.Onward i j n v ∧ (v.commitLead.BeforeOrEq v.lead → v.TurnEnds)) ∧
      w.resolve.resolve = w.resolve := by
  refine ⟨?_, w.passes_resolve, fun v hpasses => ?_, w.atRest_resolve.resolve_eq⟩
  · obtain ⟨turns, hturns, resolves⟩ := resolves_resolveSteps w.unsettled_le
    rw [show w.lead.next = w.next from SeqNum.prev_next _]
    exact ⟨turns, Nat.le_trans hturns w.unsettled_le, resolves⟩
  · have onward := h.onward_of_passes hpasses
    obtain ⟨k, -, hk, hv⟩ := onward.divided
    refine ⟨onward, fun inside => ?_⟩
    have hfront := hv.place_commitLead
    refine turnEnds ((beforeOrEq_lead_iff ?_).1 inside) ?_
    · rwa [hfront, hv.size_eq]
    · rw [hfront, hv.place_commitTrail]
      exact hv.inner

/-- A packet that is delivered and the first fragment of an APDU. -/
def unfinished : List Op :=
  [smallPush 4294967295 none 1, .read 1, smallPush 0 (some ⟨0, 0, 3⟩) 2]

/-- The second fragment leaves a gap in its APDU, and the front was not resolved since it came. -/
def contradicted : Window :=
  ((create smallTsi smallConfig).run unfinished).extend
    ⟨smallTsi, 1, some ⟨0, 2, 3⟩, ⟨#[3]⟩⟩ 0

theorem divided_contradicted : contradicted.Divided 1 1 3 := by
  have live : ((create smallTsi smallConfig).run unfinished).isGone = false := by decide +kernel
  obtain ⟨hsound, -⟩ := sound_run (sound_create smallTsi smallConfig) live
  obtain ⟨-, _, -, hmoves⟩ := extend_spec hsound (by decide +kernel)
    (p := ⟨smallTsi, 1, some ⟨0, 2, 3⟩, ⟨#[3]⟩⟩) (by decide +kernel) 0
  have h : contradicted.Sound := hmoves.sound hsound
  have trail : contradicted.place contradicted.commitTrail = 1 := by decide +kernel
  have front : contradicted.place contradicted.commitLead = 1 := by decide +kernel
  have size : contradicted.slots.size = 3 := by decide +kernel
  have divided := h.divided
  rwa [trail, front, size] at divided

/-- The first turn gives both fragments up, and each of the next two passes one. -/
theorem resolve_ends_small :
    contradicted.Divided 1 1 3 ∧ contradicted.resolve.commitLead = 2 ∧
      (∃ turns, turns ≤ 4 ∧ Resolves turns contradicted contradicted.resolve) ∧
      contradicted.Onward 1 1 3 contradicted.resolve ∧
      contradicted.resolve.resolve = contradicted.resolve := by
  obtain ⟨⟨turns, hturns, resolves⟩, passes, all, again⟩ := resolve_ends divided_contradicted
  have four : 2 * contradicted.commitLead.gap contradicted.lead.next = 4 := by decide +kernel
  exact ⟨divided_contradicted, by decide +kernel, ⟨turns, four ▸ hturns, resolves⟩,
    (all _ passes).1, again⟩

end Window

end ReliableMulticast
