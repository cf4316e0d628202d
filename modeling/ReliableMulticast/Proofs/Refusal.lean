import ReliableMulticast.Proofs.History

/-!
# Refused input

An answer that refuses its input leaves the window as it was, apart from the counts of duplicates
and of malformed packets. There is one exception: a parity packet whose group reaches beyond the
lead moves the lead before its group is looked at, and if a member was given up the packet is
refused although the lead has moved (`refused_acceptParity`). Such a packet is never a duplicate, as
the window that moved holds a bare placeholder at its new lead (`get?_advanceLead`).
-/

namespace ReliableMulticast

/-- The outcomes that refuse the input. -/
def Outcome.refuses : Outcome → Bool
  | .notInWindow | .windowUndefined | .duplicate | .apduLost | .malformedApdu | .unknown
  | .windowGone => true
  | _ => false

namespace Window

/-- The window as it was, or with one more duplicate or one more malformed packet counted. -/
inductive OnlyCounted (w : Window) : Window → Prop
  | same : OnlyCounted w w
  | duplicate : OnlyCounted w { w with counters := w.counters.addDuplicate }
  | malformed : OnlyCounted w { w with counters := w.counters.addMalformed }

/-- An operation on the window that refuses its input does no more than count it. -/
def RefusesInPlace (w : Window) (answer : Window × Receipt) : Prop :=
  answer.2.outcome.refuses → w.OnlyCounted answer.1

variable {w : Window}

theorem refusesInPlace_same (w : Window) (r : Receipt) : w.RefusesInPlace (w, r) := fun _ => .same

theorem RefusesInPlace.of_accepted {answer : Window × Receipt}
    (accepted : answer.2.outcome.refuses = false) : w.RefusesInPlace answer := by
  intro refused
  rw [accepted] at refused
  cases refused

/-! ### Data packets -/

theorem not_before_trail_define (w : Window) (s : SeqNum) : ¬ s.Before (w.define s).trail := by
  rw [SeqNum.before_iff, show (w.define s).trail = s from rfl, SeqNum.gap_self]
  omega

/-- Numbers from the place of a new window on are ahead of its lead. -/
theorem after_lead_define (w : Window) (s : SeqNum) {n : Nat} (hn : n < 2147483648) :
    (s + n).After (w.define s).lead := by
  rw [after_lead_iff, show (w.define s).next = s from SeqNum.add_zero s, SeqNum.gap_add _ (by omega)]
  exact hn

/-- A window gets its place only from a packet that it stores. -/
theorem refusesInPlace_acceptData (w : Window) (p : Packet) (source : Option RepairSource)
    (now : Timestamp) : w.RefusesInPlace (w.acceptData p source now) := by
  unfold acceptData
  split
  · exact fun _ => .malformed
  · cases hd : w.isDefined with
    | false =>
      have hplaced : w.ensureDefined p.sequence = w.define p.sequence := by simp [ensureDefined, hd]
      have hafter := w.after_lead_define p.sequence (n := 0) (by omega)
      rw [SeqNum.add_zero] at hafter
      simp only [hplaced, if_neg (w.not_before_trail_define p.sequence), if_pos hafter]
      exact .of_accepted rfl
    | true =>
      rw [show w.ensureDefined p.sequence = w from if_pos hd]
      simp only
      split
      · exact w.refusesInPlace_same _
      · split
        · exact .of_accepted rfl
        · split
          · exact w.refusesInPlace_same _
          · split
            · exact w.refusesInPlace_same _
            · split
              · exact fun _ => .duplicate
              · exact .of_accepted rfl

/-! ### Confirmations, status reports and losses -/

theorem refusesInPlace_acceptNcf (w : Window) (s : SeqNum) (sent now : Timestamp) :
    w.RefusesInPlace (w.acceptNcf s sent now) := by
  unfold acceptNcf
  split
  · exact w.refusesInPlace_same _
  · split
    · exact w.refusesInPlace_same _
    · split
      · exact w.refusesInPlace_same _
      · split
        · exact .of_accepted rfl
        · exact w.refusesInPlace_same _

theorem refusesInPlace_acceptStatus (w : Window) (trail lead : SeqNum) (size shift : Nat)
    (now : Timestamp) : w.RefusesInPlace (w.acceptStatus trail lead size shift now) := by
  unfold acceptStatus
  split
  · exact fun _ => .malformed
  · simp only
    split
    · exact .of_accepted rfl
    · refine .of_accepted ?_
      simp only [followLead]
      split <;> rfl

theorem refusesInPlace_acceptLoss (w : Window) (s : SeqNum) :
    w.RefusesInPlace (w.acceptLoss s) := by
  unfold acceptLoss
  split
  · exact w.refusesInPlace_same _
  · split
    · exact w.refusesInPlace_same _
    · split
      · exact w.refusesInPlace_same _
      · split <;> exact .of_accepted rfl

/-! ### Parity packets -/

/-- When the lead moved, the new numbers have placeholders up to the new lead. -/
theorem get?_advanceLead (h : w.Sound) (defined : w.isDefined) {lead : SeqNum}
    (ahead : lead.After w.lead) (now : Timestamp) :
    ∃ expiry, (∀ x, (w.advanceLead lead now).slots.get? x =
      if x ∈ (w.makeRoom lead).next.upTo lead.next then some (.placeholder x now expiry)
      else (w.makeRoom lead).slots.get? x) ∧ lead ∈ (w.makeRoom lead).next.upTo lead.next := by
  rw [after_lead_iff] at ahead
  obtain ⟨notes, -, hmoves, hroom⟩ := makeRoom_spec h defined ahead
  have hmax := h.capacity_le
  have hcap := hmoves.capacity_eq h
  have hgap : (w.makeRoom lead).next.gap lead.next = (w.makeRoom lead).next.gap lead + 1 :=
    SeqNum.gap_add_right (by omega)
  refine ⟨_, get?_addPlaceholders lead.next now (by omega), ?_⟩
  rw [SeqNum.upTo_eq_run (by omega), hgap, SeqNum.mem_run]
  exact ⟨_, Nat.lt_succ_self _, (SeqNum.add_gap _ _).symm⟩

/-- A member of the parity packet's group was given up. -/
def LostMember (w : Window) (p : Packet) : Prop :=
  ∃ x ∈ w.groupNumbers p.sequence, w.slotIs x (·.state = .lost)

/-- A parity packet for a group that misses a packet without parity is stored, unless a member of
the group was given up. -/
theorem storeParity_cases {p : Packet} {x : SeqNum} {slot : Slot}
    (hx : x ∈ w.groupNumbers p.sequence) (found : w.slots.get? x = some slot)
    (bare : slot.state.repairPending ∧ slot.parity = none) (outcome : Outcome) :
    (w.storeParity p outcome).2.outcome = outcome ∨
      w.LostMember p ∧ w.storeParity p outcome = (w, .of .apduLost) := by
  have stores := w.storesParity p outcome
  generalize w.storeParity p outcome = answer at *
  cases stores with
  | lost member hold lost => exact .inr ⟨⟨_, member, by simp [slotIs, hold, lost]⟩, rfl⟩
  | duplicate full => exact absurd bare.2 (full x hx slot found bare.1)
  | keep => exact .inl rfl

theorem refusesInPlace_storeParity (w : Window) (p : Packet) :
    w.RefusesInPlace (w.storeParity p .ok) := by
  have stores := w.storesParity p .ok
  generalize w.storeParity p .ok = answer at *
  cases stores with
  | lost => exact w.refusesInPlace_same _
  | duplicate => exact fun _ => .duplicate
  | keep => exact .of_accepted rfl

theorem groupLast_mem_groupNumbers (h : w.Sound) (s : SeqNum) :
    w.groupLast s ∈ w.groupNumbers s := by
  have hpos := h.groupSize_pos
  exact SeqNum.mem_run.2 ⟨w.groupSize - 1, by omega, rfl⟩

theorem groupSize_advanceLead (w : Window) (lead : SeqNum) (now : Timestamp) :
    (w.advanceLead lead now).groupSize = w.groupSize := by
  obtain ⟨_, _, _, he⟩ := (w.makeRoom lead).addPlaceholders_eq lead.next now
  rw [advanceLead, he]
  exact (w.givesWay_makeRoom lead).groupSize_eq

/-- What is refused after the lead moved: a packet whose group has a member given up. -/
theorem storeParity_advanceLead (h : w.Sound) (defined : w.isDefined) (p : Packet)
    (ahead : (w.groupLast p.sequence).After w.lead) (now : Timestamp) :
    let moved := w.advanceLead (w.groupLast p.sequence) now
    (moved.storeParity p .advancedWindow).2.outcome = .advancedWindow ∨
      moved.LostMember p ∧ moved.storeParity p .advancedWindow = (moved, .of .apduLost) := by
  obtain ⟨expiry, hget, hlead⟩ := get?_advanceLead h defined ahead now
  refine storeParity_cases ?_ ((hget _).trans (if_pos hlead)) ⟨rfl, rfl⟩ _
  rw [groupNumbers, groupFirst, groupIndex, groupSize_advanceLead]
  exact groupLast_mem_groupNumbers h p.sequence

/-- An empty window that made room is still empty. -/
theorem get?_makeRoom_of_empty (empty : w.slots.size = 0) (last x : SeqNum) :
    (w.makeRoom last).slots.get? x = none := by
  have hnone : w.slots.get? x = none := get?_of_empty empty x
  change ((evict (min w.slots.size _) w).skipTo _).slots.get? x = none
  rw [empty, Nat.zero_min, evict, skipTo]
  split
  · exact SlotRing.get?_reset ..
  · exact hnone

/-- A window gets its place from a parity packet that it stores. -/
theorem refusesInPlace_acceptParity_of_undefined (h : w.Sound) (undefined : w.isDefined = false)
    (p : Packet) (now : Timestamp) : w.RefusesInPlace (w.acceptParity p now) := by
  unfold acceptParity
  split
  · exact fun _ => .malformed
  · have hplaced : w.ensureDefined (w.groupFirst p.sequence) = w.define (w.groupFirst p.sequence) := by
      simp [ensureDefined, undefined]
    have hsound := h.define (w.groupFirst p.sequence)
    have hsize : w.groupSize ≤ 128 := h.groupSize.2
    have hlast : ((w.define (w.groupFirst p.sequence)).groupLast p.sequence).After
        (w.define (w.groupFirst p.sequence)).lead :=
      w.after_lead_define (w.groupFirst p.sequence) (n := w.groupSize - 1) (by omega)
    simp only [hplaced]
    rw [if_neg (by exact w.not_before_trail_define (w.groupFirst p.sequence)), if_pos hlast]
    rcases storeParity_advanceLead hsound rfl p hlast now with hstored | ⟨⟨x, -, hlost⟩, -⟩
    · exact .of_accepted (by rw [hstored]; rfl)
    · -- The window held nothing before, so it holds only placeholders now.
      obtain ⟨expiry, hget, -⟩ := get?_advanceLead hsound rfl hlast now
      rw [slotIs, hget, get?_makeRoom_of_empty rfl] at hlost
      split at hlost <;> cases hlost

/-- A parity packet that is refused is at most counted, or it moved the lead and then a member of
its group was found to be given up. -/
theorem refused_acceptParity (h : w.Sound) (p : Packet) (now : Timestamp)
    (refused : (w.acceptParity p now).2.outcome.refuses) :
    w.OnlyCounted (w.acceptParity p now).1 ∨
      (w.acceptParity p now).2.outcome = .apduLost ∧
        (w.groupLast p.sequence).After w.lead ∧ (w.acceptParity p now).1.LostMember p ∧
        (w.acceptParity p now).1 = w.advanceLead (w.groupLast p.sequence) now := by
  cases hd : w.isDefined with
  | false => exact .inl (refusesInPlace_acceptParity_of_undefined h hd p now refused)
  | true =>
    have hplaced : w.ensureDefined (w.groupFirst p.sequence) = w := if_pos hd
    unfold acceptParity at refused ⊢
    simp only [hplaced] at refused ⊢
    split at refused
    next hm =>
      rw [if_pos hm]
      exact .inl .malformed
    next hm =>
      rw [if_neg hm]
      split at refused
      next hbefore =>
        rw [if_pos hbefore]
        exact .inl .same
      next hbefore =>
        rw [if_neg hbefore]
        split at refused
        next hafter =>
          rw [if_pos hafter]
          rcases storeParity_advanceLead h hd p hafter now with hstored | ⟨hlost, heq⟩
          · rw [hstored] at refused
            cases refused
          · rw [heq]
            exact .inr ⟨rfl, hafter, hlost, rfl⟩
        next hafter =>
          rw [if_neg hafter]
          exact .inl (w.refusesInPlace_storeParity p refused)

/-! ### All operations -/

theorem RefusesInPlace.whileLive {op : Window → Window × Receipt} (h : w.RefusesInPlace (op w)) :
    w.RefusesInPlace (w.whileLive (.of .windowGone) op) := by
  unfold Window.whileLive
  split
  · exact w.refusesInPlace_same _
  · exact h

theorem RefusesInPlace.forSession {tsi : Tsi} {op : Window → Window × Receipt}
    (h : w.RefusesInPlace (op w)) : w.RefusesInPlace (w.forSession tsi op) := by
  unfold Window.forSession
  split
  · exact w.refusesInPlace_same _
  · exact .whileLive h

theorem refused_pushParity (h : w.isGone = false → w.Sound) (p : Packet) (now : Timestamp)
    (refused : (w.pushParity p now).2.outcome.refuses) :
    w.OnlyCounted (w.pushParity p now).1 ∨
      (w.pushParity p now).2.outcome = .apduLost ∧
        (w.groupLast p.sequence).After w.lead ∧ (w.pushParity p now).1.LostMember p ∧
        (w.pushParity p now).1 = w.advanceLead (w.groupLast p.sequence) now := by
  unfold pushParity forSession at refused ⊢
  split at refused
  next ht =>
    rw [if_pos ht]
    exact .inl .same
  next ht =>
    rw [if_neg ht]
    cases hg : w.isGone with
    | true =>
      rw [whileLive, if_pos hg]
      exact .inl .same
    | false =>
      rw [whileLive_of_live hg] at refused ⊢
      exact refused_acceptParity (h hg) p now refused

/-- After any history, an operation that refuses its input leaves the window as it was but for the
counts of duplicates and malformed packets, or it was given a parity packet for a group beyond the
lead: then the lead has moved, and a member of the group was given up. -/
theorem unchanged_of_refused (tsi : Tsi) (config : ValidConfig) (ops : List Op) (op : Op)
    (r : Receipt) (answer : (((create tsi config).run ops).step op).2 = .receipt r)
    (refused : r.outcome.refuses) :
    let w := (create tsi config).run ops
    w.OnlyCounted (w.step op).1 ∨ ∃ p now, op = .pushParity p now ∧ r.outcome = .apduLost ∧
      (w.groupLast p.sequence).After w.lead ∧ (w.step op).1.LostMember p ∧
      (w.step op).1 = w.advanceLead (w.groupLast p.sequence) now := by
  intro w
  have hsound : w.isGone = false → w.Sound := fun hlive =>
    (sound_run (sound_create tsi config) hlive).1
  cases op with
  | push p now =>
    have h : w.RefusesInPlace (w.push p now) := .forSession (w.refusesInPlace_acceptData p none now)
    obtain rfl := Answer.receipt.inj answer
    exact .inl (h refused)
  | pushRepair p source now =>
    have h : w.RefusesInPlace (w.pushRepair p source now) :=
      .forSession (w.refusesInPlace_acceptData p (some source) now)
    obtain rfl := Answer.receipt.inj answer
    exact .inl (h refused)
  | pushParity p now =>
    obtain rfl := Answer.receipt.inj answer
    rcases refused_pushParity hsound p now refused with hsame | hmoved
    · exact .inl hsame
    · exact .inr ⟨p, now, rfl, hmoved⟩
  | confirmNak s sent now =>
    have h : w.RefusesInPlace (w.confirmNak s sent now) :=
      .whileLive (w.refusesInPlace_acceptNcf s sent now)
    obtain rfl := Answer.receipt.inj answer
    exact .inl (h refused)
  | updateStatus trail lead size shift now =>
    have h : w.RefusesInPlace (w.updateStatus trail lead size shift now) :=
      .whileLive (w.refusesInPlace_acceptStatus trail lead size shift now)
    obtain rfl := Answer.receipt.inj answer
    exact .inl (h refused)
  | markLost s =>
    have h : w.RefusesInPlace (w.markLost s) := .whileLive (w.refusesInPlace_acceptLoss s)
    obtain rfl := Answer.receipt.inj answer
    exact .inl (h refused)
  | sweep | read | release | free | shutdown | repair => cases answer

/-- A full window with a packet to be read, and the first member of a group given up at its lead. -/
def refusalHistory : List Op :=
  [smallPush 4294967295 none 1, smallPush 2 none 2, .markLost 2]

/-- A parity packet of that group. -/
def refusalParity : Op := .pushParity ⟨smallTsi, 2, none, ⟨#[3]⟩⟩ 0

theorem unchanged_of_refused_small :
    (((create smallTsi smallConfig).run refusalHistory).step refusalParity).2 =
        .receipt (.of .apduLost) ∧
      (Receipt.of .apduLost).outcome.refuses ∧
      let w := (create smallTsi smallConfig).run refusalHistory
      w.OnlyCounted (w.step refusalParity).1 ∨ ∃ p now, refusalParity = .pushParity p now ∧
        (Receipt.of .apduLost).outcome = .apduLost ∧ (w.groupLast p.sequence).After w.lead ∧
        (w.step refusalParity).1.LostMember p ∧
        (w.step refusalParity).1 = w.advanceLead (w.groupLast p.sequence) now :=
  ⟨by rfl, by decide, unchanged_of_refused smallTsi smallConfig refusalHistory refusalParity
    (.of .apduLost) (by rfl) (by decide)⟩

theorem OnlyCounted.lead_eq {w' : Window} (h : w.OnlyCounted w') : w'.lead = w.lead := by
  cases h <;> rfl

/-- The refused parity packet moved the lead, and the packet that was to be read is lost. -/
theorem refused_parity_evicts :
    let w := (create smallTsi smallConfig).run refusalHistory
    (w.step refusalParity).2 = .receipt (.of .apduLost) ∧
      ¬ w.OnlyCounted (w.step refusalParity).1 ∧ w.trail = 4294967295 ∧
      (w.step refusalParity).1.trail = 0 ∧ w.counters.losses = 1 ∧
      (w.step refusalParity).1.counters.losses = 2 := by
  refine ⟨by rfl, fun h => ?_, by decide +kernel, by decide +kernel, by decide +kernel,
    by decide +kernel⟩
  have hlead : ((create smallTsi smallConfig).run refusalHistory).lead = 2 := by decide +kernel
  have hmoved : (((create smallTsi smallConfig).run refusalHistory).step refusalParity).1.lead = 3 := by
    decide +kernel
  exact absurd (hmoved.symm.trans (h.lead_eq.trans hlead)) (by decide)

end Window

end ReliableMulticast
