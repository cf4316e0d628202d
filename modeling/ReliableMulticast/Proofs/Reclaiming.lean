import ReliableMulticast.Proofs.Accounts
import ReliableMulticast.Proofs.Lockstep
import ReliableMulticast.Proofs.Reassembly
import ReliableMulticast.Proofs.SenderTrail

/-!
# Reclaiming does not show

Without transmission groups nothing that was delivered is needed any more, so when it is reclaimed is
a matter of memory alone. A history and the same history without the operations that reclaim lead to
windows that mirror each other (`shadowed_run`): what is read, what is asked for and what the window
tells of itself is the same. The sender has to keep to one packet for each number, as a packet that
contradicts the start of its APDU is refused only as long as that is held, and the numbers to half of
the number space from where the window began, as beyond that a number is ahead of one trail and behind
another.
-/

namespace ReliableMulticast

/-- What a sender sends: one packet for each number, and the fragments of an APDU tell the length
that its first one tells. -/
structure Sender where
  packet : SeqNum → Packet
  sequence : ∀ s, (packet s).sequence = s
  consistent : ∀ s f, (packet s).fragment = some f →
    (packet f.apduFirst).fragment.map (·.totalLength) = some f.totalLength

namespace Window

/-- The operation reclaims what was delivered. -/
def Op.reclaims : Op → Bool
  | .release | .free => true
  | _ => false

/-- The newest number that the sender tells of. -/
def Op.newest? : Op → Option SeqNum
  | .push p _ | .pushRepair p _ _ => some p.sequence
  | .updateStatus _ lead _ _ _ => some lead
  | _ => none

end Window

namespace Sender

open Window

/-- The operation brings the window nothing but what the sender sends, and that is no parity: its
packets and its reports without a group size. -/
def Sends (sender : Sender) : Op → Prop
  | .push p _ | .pushRepair p _ _ => p = sender.packet p.sequence
  | .updateStatus _ _ size shift _ => size = 0 ∧ shift = 0
  | .pushParity .. | .shutdown | .repair .. => False
  | _ => True

/-- The window is fed by the sender. Once it has its place, the numbers that it is told of lie less
than half of the number space after the place where it began. -/
structure Feeds (sender : Sender) (w : Window) (ops : List Op) : Prop where
  sends : ∀ op ∈ ops, sender.Sends op
  near : ∀ before op, before ++ [op] <+: ops → (w.run before).isDefined →
    ∀ x ∈ op.newest?, (w.origin ops).gap x < 2147483648

variable {sender : Sender} {op : Op}

theorem Sends.isPart (h : sender.Sends op) : op.isPart := by
  cases op with
  | repair => cases h
  | _ => rfl

theorem Sends.ne_shutdown (h : sender.Sends op) : op ≠ .shutdown := by
  rintro rfl
  exact h

end Sender

namespace Window

variable {w w' : Window} {notes : List Note} {sender : Sender} {d x : SeqNum} {op : Op}
  {ops : List Op}

/-! ### Packets of one sender -/

/-- All data in the window has the fragment option of the sender's packet. -/
def Carries (w : Window) (sender : Sender) : Prop :=
  ∀ x slot, w.slots.get? x = some slot → slot.state.hasData →
    slot.fragment = (sender.packet x).fragment

theorem Move.carries (hm : w.Move notes w') (hs : w.Sound) (h : w.Carries sender)
    (sent : ∀ p ∈ Note.packets notes, p = sender.packet p.sequence) : w'.Carries sender := by
  intro x new found held
  rcases hm.data_cases hs found held with ⟨p, rfl, rfl, carries⟩ | ⟨-, old, hold, keeps⟩
  · have hp := sent p (List.mem_singleton_self p)
    rw [carries.fragment, ← hp]
  · rw [← keeps.fragment, h x old hold keeps.hasData]

theorem Moves.carries (hm : w.Moves notes w') (hs : w.Sound) (h : w.Carries sender)
    (sent : ∀ p ∈ Note.packets notes, p = sender.packet p.sequence) : w'.Carries sender := by
  induction hm with
  | done => exact h
  | next first _ ih =>
    rw [Note.packets_append, List.forall_mem_append] at sent
    exact ih (first.sound hs) (first.carries hs h sent.1) sent.2

/-- No packet of the sender contradicts what the window holds of its APDU. -/
theorem Carries.contradictsHead_eq_false (h : w.Carries sender) {p : Packet} {f : Fragment}
    (sent : p = sender.packet p.sequence) (hf : p.fragment = some f) :
    w.contradictsHead f = false := by
  rw [sent] at hf
  have htotal := sender.consistent p.sequence f hf
  unfold contradictsHead slotIs
  cases found : w.slots.get? f.apduFirst with
  | none => rfl
  | some head =>
    cases held : head.state.hasData with
    | false => rw [Option.any_some, held, Bool.false_and]
    | true =>
      have hhead := h _ head found held
      simp only [Option.any_some, held, hhead, htotal, ne_eq, not_true_eq_false, decide_false,
        Bool.and_false]

/-- Windows that mirror each other find the same of the sender's packets malformed. -/
theorem Mirrors.isMalformed_eq (hmirror : w.Mirrors w') (h : w.Carries sender)
    (h' : w'.Carries sender) {p : Packet} (sent : p = sender.packet p.sequence) :
    w'.isMalformed p = w.isMalformed p := by
  have hsize : w'.isOversized p = w.isOversized p := by
    rw [isOversized, hmirror.config, isOversized]
  rw [isMalformed, hsize, isMalformed]
  cases hf : p.fragment with
  | none => rw [Option.any_none, Option.any_none]
  | some f =>
    rw [Option.any_some, Option.any_some, isMalformedFragment, hmirror.capacity,
      h'.contradictsHead_eq_false sent hf, isMalformedFragment, h.contradictsHead_eq_false sent hf]

/-! ### Where the lead goes -/

theorem next_acceptData (h : w.Sound) (defined : w.isDefined) (p : Packet)
    (source : Option RepairSource) (now : Timestamp) :
    (w.acceptData p source now).1.next = w.next ∨
      w.next.gap p.sequence < 2147483648 ∧
        (w.acceptData p source now).1.next = p.sequence.next := by
  cases hm : w.isMalformed p with
  | true =>
    rw [acceptData_of_malformed hm]
    exact .inl rfl
  | false =>
    have htakes := takes_acceptData hm source now
    rw [show w.ensureDefined p.sequence = w from if_pos defined] at htakes
    generalize w.acceptData p source now = answer at htakes ⊢
    cases htakes with
    | behind | lost | duplicate => exact .inl rfl
    | ahead after =>
      have ahead := after_lead_iff.1 after
      exact .inr ⟨ahead, (stands_resolve _).next.trans (next_extend h defined ahead now)⟩
    | missing => exact .inl ((stands_fillSlot p source now).trans (stands_resolve _)).next

theorem next_acceptStatus (h : w.Sound) (defined : w.isDefined) (trail lead : SeqNum)
    (now : Timestamp) :
    (w.acceptStatus trail lead 0 0 now).1.next = w.next ∨
      w.next.gap lead < 2147483648 ∧ (w.acceptStatus trail lead 0 0 now).1.next = lead.next := by
  have silent : w.announceGroups 0 0 = w := if_pos ⟨rfl, rfl⟩
  unfold acceptStatus
  split
  · exact .inl rfl
  · simp only [silent, defined, Bool.not_true, Bool.false_eq_true, if_false]
    obtain ⟨_, hmoves, -⟩ := moves_followLead h defined lead now
    have hlead := (stands_resolve _).next.trans (next_followTrail (hmoves.sound h) trail)
    rw [hlead]
    unfold followLead
    split
    next after =>
      have ahead := after_lead_iff.1 after
      have hnext : (w.advanceLead lead now).lead.next = (w.advanceLead lead now).next :=
        SeqNum.prev_next _
      rw [lead_advanceLead h defined ahead now] at hnext
      exact .inr ⟨ahead, hnext.symm⟩
    · exact .inl rfl

theorem next_sweepAll (w : Window) (now : Timestamp) : (w.sweepAll now).1.next = w.next := by
  have hended := next_of_frame_eq (w.frame_endAllDue now)
  unfold sweepAll
  rcases hend : w.endAllDue now with ⟨v, ended⟩
  rw [hend] at hended
  split
  · rfl
  · have hlost : ((Ended.exhausted ended).foldl loseApdu v).next = v.next :=
      next_of_frame_eq (frame_foldl frame_loseApdu _ v)
    exact (stands_resolve _).next.trans (hlost.trans hended)

/-- The lead goes to a number that the sender tells of, or nowhere. -/
theorem next_step (h : w.Sound) (live : w.isGone = false) (defined : w.isDefined)
    (sends : sender.Sends op) :
    (w.step op).1.next = w.next ∨
      ∃ x ∈ op.newest?, w.next.gap x < 2147483648 ∧ (w.step op).1.next = x.next := by
  have packet : ∀ (p : Packet) source now,
      (w.forSession p.tsi (·.acceptData p source now)).1.next = w.next ∨
        w.next.gap p.sequence < 2147483648 ∧
          (w.forSession p.tsi (·.acceptData p source now)).1.next = p.sequence.next := by
    intro p source now
    unfold forSession
    split
    · exact .inl rfl
    · rw [whileLive_of_live live]
      exact next_acceptData h defined p source now
  cases op with
  | push p now => exact (packet p none now).imp_right fun moved => ⟨p.sequence, rfl, moved⟩
  | pushRepair p source now =>
    exact (packet p (some source) now).imp_right fun moved => ⟨p.sequence, rfl, moved⟩
  | updateStatus trail lead size shift now =>
    obtain ⟨rfl, rfl⟩ := sends
    simp only [step, updateStatus, whileLive_of_live live]
    exact (next_acceptStatus h defined trail lead now).imp_right fun moved => ⟨lead, rfl, moved⟩
  | confirmNak s sent now =>
    simp only [step, confirmNak, whileLive_of_live live]
    exact .inl (stands_acceptNcf h s sent now).next
  | markLost s =>
    simp only [step, markLost, whileLive_of_live live]
    exact .inl (w.stands_acceptLoss s).next
  | sweep now =>
    simp only [step, sweep, whileLive_of_live live]
    exact .inl (w.next_sweepAll now)
  | read count =>
    simp only [step, read, whileLive_of_live live]
    exact .inl (w.stands_readReady count).next
  | release =>
    simp only [step, release, whileLive_of_live live]
    exact .inl (stands_releaseUpTo _ w).next
  | free =>
    simp only [step, free, live]
    exact .inl w.stands_freeDelivered.next
  | pushParity | shutdown | repair => cases sends

/-! ### Numbers near the place where the window began -/

/-- A lead that goes on by `n` numbers takes the window no further than that. -/
theorem Moves.near (hm : w.Moves notes w') (h : w.Sound) (defined : w.isDefined)
    (most : Note.advance notes ≤ 2147483648) {n : Nat} (next : w'.next = w.next + n)
    (near : d.gap w.trail + w.slots.size + n ≤ 2147483648) :
    d.gap w'.trail + w'.slots.size ≤ 2147483648 := by
  obtain ⟨count, hmoved, hcount⟩ := hm.exists_movedOn h defined
  have hct := h.place_commitTrail_le
  have hsize := h.size_le
  have hsize' := (hm.sound h).size_le
  have hmore := hmoved.size
  have hsame : w.trail + (count + w'.slots.size) = w.trail + (w.slots.size + n) := by
    rw [← SeqNum.add_add, ← hmoved.trail, ← SeqNum.add_add]
    exact next
  have hall : count + w'.slots.size = w.slots.size + n := by
    have hsum := congrArg (fun s => s.raw.toNat) hsame
    simp only [SeqNum.toNat_add] at hsum
    omega
  rw [hmoved.trail, SeqNum.gap_add_right (by omega)]
  omega

theorem gap_next_of_near (near : d.gap w.trail + w.slots.size ≤ 2147483648) :
    d.gap w.next = d.gap w.trail + w.slots.size :=
  SeqNum.gap_add_right (show d.gap w.trail + w.slots.size < 4294967296 by omega)

/-- A number ahead of the lead is not behind the trail at the same time. -/
theorem not_before_of_near (near : d.gap w.trail + w.slots.size ≤ 2147483648)
    (within : d.gap x < 2147483648) (after : x.After w.lead) : ¬ x.Before w.trail := by
  have hnext := gap_next_of_near near
  have ahead := after_lead_iff.1 after
  have hx : d.gap x = d.gap w.next + w.next.gap x := SeqNum.gap_trans (by omega)
  rw [SeqNum.before_iff_gap_lt d (by omega) (by omega)]
  omega

/-- The rules that a window keeps whose groups are single packets and which a sender feeds. -/
structure Abides (w : Window) (sender : Sender) (d : SeqNum) : Prop where
  sound : w.Sound
  live : w.isGone = false
  single : w.groupSize ≤ 1
  carries : w.Carries sender
  near : w.isDefined → d.gap w.trail + w.slots.size ≤ 2147483648

theorem groupSize_step (h : w.Sound) (live : w.isGone = false) (sends : sender.Sends op) :
    (w.step op).1.groupSize = w.groupSize := by
  obtain ⟨notes, hmoves, htells⟩ := step_spec_of_ne h live sends.isPart sends.ne_shutdown
  cases op with
  | updateStatus trail lead size shift now =>
    obtain ⟨rfl, rfl⟩ := sends
    have silent : w.announceGroups 0 0 = w := if_pos ⟨rfl, rfl⟩
    simp only [step, updateStatus, whileLive_of_live live]
    by_cases malformed : lead.next.Before trail
    · rw [acceptStatus_of_malformed malformed]
      rfl
    · obtain ⟨notes, hmoves, htook⟩ := moves_of_announced h malformed 0 0 now
      rw [silent] at hmoves
      exact hmoves.groupSize_eq (htook.regroups trivial)
  | pushParity | shutdown | repair => cases sends
  | _ => exact hmoves.groupSize_eq (htells.regroups trivial)

/-- The packets that a step stores are the sender's. -/
theorem sent_of_accepted (sends : sender.Sends op) {answer : Answer} :
    ∀ p ∈ op.accepted answer, p = sender.packet p.sequence := by
  have stored : ∀ {q : Packet} {r : Receipt}, q = sender.packet q.sequence →
      ∀ p ∈ (if r.outcome.stores then [q] else []), p = sender.packet p.sequence := by
    intro q r hq p hp
    split at hp
    · rwa [List.mem_singleton.1 hp]
    · cases hp
  cases op with
  | push p now =>
    cases answer with
    | receipt r => exact stored sends
    | _ => exact fun p hp => by cases hp
  | pushRepair p source now =>
    cases answer with
    | receipt r => exact stored sends
    | _ => exact fun p hp => by cases hp
  | _ => exact fun p hp => by cases hp

theorem near_step (h : w.Abides sender d) (defined : w.isDefined) (sends : sender.Sends op)
    (within : ∀ x ∈ op.newest?, d.gap x < 2147483648) :
    d.gap (w.step op).1.trail + (w.step op).1.slots.size ≤ 2147483648 := by
  have hnear := h.near defined
  obtain ⟨notes, hmoves, htells⟩ := step_spec_of_ne h.sound h.live sends.isPart sends.ne_shutdown
  by_cases reads : ∃ count, op = .read count
  · -- What is read stays in the window, however much it is.
    obtain ⟨count, rfl⟩ := reads
    rw [step_read h.live, w.trail_readReady, w.size_readReady]
    exact hnear
  have most := htells.advance_le fun count hread => reads ⟨count, hread⟩
  rcases next_step h.sound h.live defined sends with still | ⟨x, hx, ahead, moved⟩
  · exact hmoves.near h.sound defined most (still.trans (SeqNum.add_zero _).symm) hnear
  · have hwithin := within x hx
    have hnext := gap_next_of_near hnear
    have hgap : d.gap x = d.gap w.next + w.next.gap x := SeqNum.gap_trans (by omega)
    have hmoved : (w.step op).1.next = w.next + (w.next.gap x + 1) := by
      rw [moved, ← SeqNum.add_next, SeqNum.add_gap]
    exact hmoves.near h.sound defined most hmoved (by omega)

theorem Abides.step (h : w.Abides sender d) (sends : sender.Sends op)
    (within : w.isDefined → ∀ x ∈ op.newest?, d.gap x < 2147483648)
    (begins : w.isDefined = false → (w.step op).1.isDefined → (w.step op).1.trail = d) :
    (w.step op).1.Abides sender d := by
  obtain ⟨notes, hmoves, htells⟩ := step_spec_of_ne h.sound h.live sends.isPart sends.ne_shutdown
  have hsound := hmoves.sound h.sound
  refine ⟨hsound, hmoves.keeps.isGone.trans h.live, ?_, ?_, fun defined => ?_⟩
  · rw [groupSize_step h.sound h.live sends]
    exact h.single
  · refine hmoves.carries h.sound h.carries fun p hp => ?_
    rw [htells.packets] at hp
    exact sent_of_accepted sends p hp
  · cases before : w.isDefined with
    | true => exact near_step h before sends (within before)
    | false =>
      have hsize := hsound.size_le
      rw [begins before defined, SeqNum.gap_self]
      omega

/-! ### What shows -/

/-- What the application and the network see of an answer: what was read, and what is asked for. -/
def Answer.shown? : Answer → Option Answer
  | .delivery d => some (.delivery d)
  | .naks requests => some (.naks requests)
  | _ => none

/-- What the application and the network see in the course of a history. -/
def shown (w : Window) (ops : List Op) : List Answer := (w.record ops).filterMap (·.2.shown?)

/-- What a window tells of itself. -/
structure View where
  commitTrail : SeqNum
  commitLead : SeqNum
  nextExpiry : Option Timestamp
  losses : Nat

def view (w : Window) : View := ⟨w.commitTrail, w.commitLead, w.nextExpiry, w.counters.losses⟩

/-- The history without the operations that reclaim. -/
def unreclaimed (ops : List Op) : List Op := ops.filter (!·.reclaims)

theorem shown_append (w : Window) (ops more : List Op) :
    w.shown (ops ++ more) = w.shown ops ++ (w.run ops).shown more := by
  rw [shown, record_append, List.filterMap_append, shown, shown]

theorem shown_concat (w : Window) (ops : List Op) (op : Op) :
    w.shown (ops ++ [op]) = w.shown ops ++ ((w.run ops).step op).2.shown?.toList := by
  rw [shown_append]
  refine congrArg (w.shown ops ++ ·) ?_
  simp only [shown, record, List.filterMap_cons, List.filterMap_nil]
  cases ((w.run ops).step op).2.shown? <;> rfl

theorem Mirrors.view_eq (h : w.Mirrors w') (hs : w.Sound) (hs' : w'.Sound) : w'.view = w.view := by
  rw [view, nextExpiry, h.commitTrail, h.commitLead, h.isGone, h.firstExpiry hs hs', h.losses]
  rfl

/-! ### Reclaiming -/

/-- An operation that reclaims leaves a mirror of the window and shows nothing. -/
theorem Abides.mirrors_reclaim (h : w.Abides sender d) (reclaims : op.reclaims) :
    w.Mirrors (w.step op).1 ∧ (w.step op).2.shown? = none := by
  cases op with
  | release =>
    simp only [Window.step, Window.release, whileLive_of_live h.live]
    exact ⟨h.sound.mirrors_releaseUpTo _ h.single, rfl⟩
  | free =>
    simp only [Window.step, Window.free, h.live]
    exact ⟨h.sound.mirrors_freeDelivered, rfl⟩
  | _ => cases reclaims

/-- A window without a place has nothing to reclaim. -/
theorem Sound.reclaim_of_undefined (h : w.Sound) (undefined : w.isDefined = false)
    (reclaims : op.reclaims) : (w.step op).1 = w := by
  have hplace : w.trail.gap w.commitTrail = 0 := (h.blank undefined).2.1
  have hnone : w.trail.upTo w.commitTrail = [] := by
    rw [SeqNum.upTo_eq_run (by omega), hplace]
    rfl
  cases op with
  | release =>
    simp only [step, release, whileLive, releaseDelivered, hplace]
    split <;> rfl
  | free =>
    simp only [step, Window.free, freeDelivered, hnone]
    split <;> rfl
  | _ => cases reclaims

/-! ### The same operation in both windows -/

/-- A packet that is ahead of the lead is not behind the trail at the same time. -/
theorem Abides.not_before (h : w.Abides sender d) {p : Packet}
    (within : w.isDefined → d.gap p.sequence < 2147483648) :
    p.sequence.After (w.ensureDefined p.sequence).lead →
      ¬ p.sequence.Before (w.ensureDefined p.sequence).trail := by
  unfold ensureDefined
  split
  next defined => exact not_before_of_near (h.near defined) (within defined)
  next undefined =>
    intro _ before
    have htrail : (w.define p.sequence).trail = p.sequence := rfl
    rw [htrail, SeqNum.before_iff, SeqNum.gap_self] at before
    omega

namespace Mirrors

theorem forSession (h : w.Mirrors w') (live : w.isGone = false) (tsi : Tsi)
    {accept : Window → Window × Receipt} (taken : (accept w).1.Mirrors (accept w').1) :
    (w.forSession tsi accept).1.Mirrors (w'.forSession tsi accept).1 := by
  have htsi : w'.tsi = w.tsi := congrArg Frame.tsi h.frame
  unfold Window.forSession
  rw [htsi]
  split
  · exact h
  · rw [whileLive_of_live live, whileLive_of_live (h.isGone.trans live)]
    exact taken

/-- An operation that does not reclaim does the same to both windows, and shows the same. -/
theorem step (h : w.Mirrors w') (a : w.Abides sender d) (a' : w'.Abides sender d)
    (sends : sender.Sends op) (keeps : op.reclaims = false)
    (within : w.isDefined → ∀ x ∈ op.newest?, d.gap x < 2147483648) :
    (w.step op).1.Mirrors (w'.step op).1 ∧ (w'.step op).2.shown? = (w.step op).2.shown? := by
  have live := a.live
  have live' := a'.live
  have packet : ∀ (p : Packet), p = sender.packet p.sequence →
      (w.isDefined → d.gap p.sequence < 2147483648) → ∀ source now,
      (w.forSession p.tsi (·.acceptData p source now)).1.Mirrors
        (w'.forSession p.tsi (·.acceptData p source now)).1 := by
    intro p sent hp source now
    exact h.forSession live p.tsi (h.acceptData a.sound a'.sound
      (h.isMalformed_eq a.carries a'.carries sent) (a.not_before hp)
      (a'.not_before fun defined => hp (h.isDefined ▸ defined)) source now)
  have quiet : ∀ answer : Window × Receipt, (answer.map id Answer.receipt).2.shown? = none :=
    fun _ => rfl
  cases op with
  | push p now =>
    exact ⟨packet p sends (fun defined => within defined _ rfl) none now,
      (quiet (w'.push p now)).trans (quiet (w.push p now)).symm⟩
  | pushRepair p source now =>
    exact ⟨packet p sends (fun defined => within defined _ rfl) (some source) now,
      (quiet (w'.pushRepair p source now)).trans (quiet (w.pushRepair p source now)).symm⟩
  | updateStatus trail lead size shift now =>
    obtain ⟨rfl, rfl⟩ := sends
    simp only [Window.step, updateStatus, whileLive_of_live live, whileLive_of_live live']
    exact ⟨h.acceptStatus a.sound a'.sound trail lead now, (quiet _).trans (quiet _).symm⟩
  | confirmNak s sent now =>
    simp only [Window.step, confirmNak, whileLive_of_live live, whileLive_of_live live']
    exact ⟨h.acceptNcf a.sound a'.sound s sent now, (quiet _).trans (quiet _).symm⟩
  | markLost s =>
    simp only [Window.step, markLost, whileLive_of_live live, whileLive_of_live live']
    exact ⟨h.acceptLoss a.sound a'.sound s, (quiet _).trans (quiet _).symm⟩
  | sweep now =>
    obtain ⟨hmirror, hasked⟩ := h.sweepAll a.sound a'.sound now
    simp only [Window.step, sweep, whileLive_of_live live, whileLive_of_live live']
    exact ⟨hmirror, congrArg (some ∘ Answer.naks) hasked⟩
  | read count =>
    obtain ⟨hmirror, hread⟩ := h.readReady a.sound a'.sound count
    simp only [Window.step, read, whileLive_of_live live, whileLive_of_live live']
    exact ⟨hmirror, congrArg (some ∘ Answer.delivery) hread⟩
  | release | free => cases keeps
  | pushParity | shutdown | repair => cases sends

end Mirrors

/-! ### Whole histories -/

theorem unreclaimed_concat (ops : List Op) (op : Op) :
    unreclaimed (ops ++ [op]) = unreclaimed ops ++ if op.reclaims then [] else [op] := by
  rw [unreclaimed, List.filter_append, unreclaimed]
  cases reclaims : op.reclaims <;> simp [reclaims]

/-- The window after a history is in step with the one after the same history without the operations
that reclaim. -/
structure Shadowed (w : Window) (sender : Sender) (d : SeqNum) (ops : List Op) : Prop where
  kept : (w.run (unreclaimed ops)).Abides sender d
  reclaimed : (w.run ops).Abides sender d
  mirrors : (w.run (unreclaimed ops)).Mirrors (w.run ops)
  blank : (w.run ops).isDefined = false → w.run (unreclaimed ops) = w.run ops
  shown : w.shown (unreclaimed ops) = w.shown ops

namespace Shadowed

/-- Nothing takes the place of a window away. -/
theorem isDefined_of_concat (h : w.Shadowed sender d ops) (sends : sender.Sends op)
    (undefined : (w.run (ops ++ [op])).isDefined = false) : (w.run ops).isDefined = false := by
  obtain ⟨notes, hmoves, -⟩ :=
    step_spec_of_ne h.reclaimed.sound h.reclaimed.live sends.isPart sends.ne_shutdown
  rw [run_concat] at undefined
  by_contra defined
  rw [hmoves.keeps.isDefined (by simpa using defined)] at undefined
  cases undefined

theorem reclaim (h : w.Shadowed sender d ops) (reclaims : op.reclaims) :
    w.Shadowed sender d (ops ++ [op]) := by
  have sends : sender.Sends op := by
    cases op with
    | release | free => trivial
    | _ => cases reclaims
  have untold : op.newest? = none := by
    cases op with
    | release | free => rfl
    | _ => cases reclaims
  have hsame : unreclaimed (ops ++ [op]) = unreclaimed ops := by
    rw [unreclaimed_concat, if_pos reclaims, List.append_nil]
  obtain ⟨hmirror, hquiet⟩ := h.reclaimed.mirrors_reclaim reclaims
  refine ⟨?_, ?_, ?_, fun undefined => ?_, ?_⟩
  · rw [hsame]
    exact h.kept
  · rw [run_concat]
    refine h.reclaimed.step sends (fun _ x hx => ?_) fun undefined defined => ?_
    · rw [untold] at hx
      cases hx
    · rw [h.reclaimed.sound.reclaim_of_undefined undefined reclaims, undefined] at defined
      cases defined
  · rw [hsame, run_concat]
    exact h.mirrors.trans hmirror
  · have before := h.isDefined_of_concat sends undefined
    rw [hsame, run_concat, h.reclaimed.sound.reclaim_of_undefined before reclaims]
    exact h.blank before
  · rw [hsame, shown_concat, hquiet, h.shown, Option.toList_none, List.append_nil]

theorem concat (h : w.Shadowed sender d ops) (sends : sender.Sends op) (keeps : op.reclaims = false)
    (within : (w.run (unreclaimed ops)).isDefined → ∀ x ∈ op.newest?, d.gap x < 2147483648)
    (begins : (w.run (unreclaimed ops)).isDefined = false →
      (w.run (unreclaimed ops ++ [op])).isDefined → (w.run (unreclaimed ops ++ [op])).trail = d) :
    w.Shadowed sender d (ops ++ [op]) := by
  have hsame : unreclaimed (ops ++ [op]) = unreclaimed ops ++ [op] := by
    rw [unreclaimed_concat, keeps, if_neg Bool.false_ne_true]
  have hdefined := h.mirrors.isDefined
  obtain ⟨hmirror, hshown⟩ := h.mirrors.step h.kept h.reclaimed sends keeps within
  rw [run_concat] at begins
  refine ⟨?_, ?_, ?_, fun undefined => ?_, ?_⟩
  · rw [hsame, run_concat]
    exact h.kept.step sends within begins
  · rw [run_concat]
    -- Without a place both windows are the same, so both begin in the same place.
    refine h.reclaimed.step sends (fun defined => within (hdefined ▸ defined)) fun undefined => ?_
    rw [← h.blank undefined]
    exact begins (hdefined.symm.trans undefined)
  · rw [hsame, run_concat, run_concat]
    exact hmirror
  · rw [hsame, run_concat, run_concat, h.blank (h.isDefined_of_concat sends undefined)]
  · rw [hsame, shown_concat, shown_concat, h.shown, hshown]

end Shadowed

theorem abides_create (tsi : Tsi) {config : ValidConfig} (single : config.1.groupSize = 1)
    (sender : Sender) (d : SeqNum) : (create tsi config).Abides sender d where
  sound := sound_create tsi config
  live := rfl
  single := by
    rw [show (create tsi config).groupSize = config.1.groupSize.toNat from rfl, single]
    decide
  carries := fun x slot found => by cases (get?_create tsi config x).symm.trans found
  near := fun defined => by cases defined

/-- A history of a new window that a sender feeds leads where it leads without the operations that
reclaim. -/
theorem shadowed_run (tsi : Tsi) {config : ValidConfig} (single : config.1.groupSize = 1)
    {ops before : List Op} (feeds : sender.Feeds (create tsi config) (unreclaimed ops))
    (part : before <+: ops) :
    (create tsi config).Shadowed sender ((create tsi config).origin (unreclaimed ops)) before := by
  induction before using List.reverseRecOn with
  | nil =>
    have abides := abides_create tsi single sender ((create tsi config).origin (unreclaimed ops))
    exact ⟨abides, abides, .refl _, fun _ => rfl, rfl⟩
  | append_singleton before op ih =>
    have h := ih ((List.prefix_append before [op]).trans part)
    cases reclaims : op.reclaims with
    | true => exact h.reclaim reclaims
    | false =>
      have hpart : unreclaimed before ++ [op] <+: unreclaimed ops := by
        have := part.filter (!·.reclaims)
        rwa [List.filter_append, List.filter_singleton, reclaims] at this
      have sends : ∀ x ∈ unreclaimed before ++ [op], sender.Sends x :=
        fun x hx => feeds.sends x (hpart.subset hx)
      refine h.concat (sends op (List.mem_append_right _ (List.mem_singleton_self op))) reclaims
        (feeds.near _ op hpart) fun undefined defined => ?_
      -- The operations that do not reclaim decide alone where the window begins.
      have horigin := exists_origin tsi config
        (fun x hx => (sends x (List.mem_append_left _ hx)).isPart) h.kept.live
      rw [undefined] at horigin
      obtain ⟨more, hmore⟩ := hpart
      rw [← hmore, origin_append_of_defined defined, horigin.2, origin, undefined, run_concat]
      rfl

/-- When what was delivered is reclaimed does not show. Histories of a new window that differ in
nothing else show the same, and wherever both are equally far the window tells the same of itself. -/
theorem reclaiming_unseen (tsi : Tsi) {config : ValidConfig} (single : config.1.groupSize = 1)
    {ops ops' : List Op} (feeds : sender.Feeds (create tsi config) (unreclaimed ops))
    (same : unreclaimed ops' = unreclaimed ops) {before before' : List Op} (part : before <+: ops)
    (part' : before' <+: ops') (even : unreclaimed before' = unreclaimed before) :
    (create tsi config).shown before' = (create tsi config).shown before ∧
      ((create tsi config).run before').view = ((create tsi config).run before).view := by
  have h := shadowed_run tsi single feeds part
  rw [← same] at feeds
  have h' := shadowed_run tsi single feeds part'
  have hkept := h.mirrors.view_eq h.kept.sound h.reclaimed.sound
  have hkept' := h'.mirrors.view_eq h'.kept.sound h'.reclaimed.sound
  rw [even] at hkept'
  refine ⟨?_, hkept'.trans hkept.symm⟩
  rw [← h'.shown, ← h.shown, even]

/-- Four slots without groups. -/
def singleConfig : ValidConfig := ⟨{ smallConfig.1 with groupSize := 1 }, by decide⟩

/-- Packets 1 and 2 are an APDU, all others are one each. -/
def pairSender : Sender where
  packet s :=
    ⟨smallTsi, s, if s = 1 then some ⟨1, 0, 2⟩ else if s = 2 then some ⟨1, 1, 2⟩ else none, ⟨#[1]⟩⟩
  sequence _ := rfl
  consistent s f hf := by
    split at hf
    · obtain rfl := Option.some.inj hf
      rfl
    · split at hf
      · obtain rfl := Option.some.inj hf
        rfl
      · cases hf

/-- What was delivered is reclaimed whenever it was read. -/
def tidyHistory : List Op :=
  [.push (pairSender.packet 0) 0, .read 1, .free, .release, .push (pairSender.packet 1) 1,
    .push (pairSender.packet 2) 2, .read 1, .release, .push (pairSender.packet 1) 3,
    .push (pairSender.packet 5) 4, .free, .sweep 30, .read 2]

/-- What was delivered stays until its room is needed. -/
def laxHistory : List Op := unreclaimed tidyHistory

theorem feeds_laxHistory : pairSender.Feeds (create smallTsi singleConfig) laxHistory where
  sends := by
    have hlax : laxHistory = [.push (pairSender.packet 0) 0, .read 1, .push (pairSender.packet 1) 1,
      .push (pairSender.packet 2) 2, .read 1, .push (pairSender.packet 1) 3,
      .push (pairSender.packet 5) 4, .sweep 30, .read 2] := rfl
    simp [hlax, Sender.Sends, pairSender]
  near := by
    intro before op part _ x hx
    have hop : op ∈ laxHistory := part.subset (List.mem_append_right _ (List.mem_singleton_self op))
    have horigin : (create smallTsi singleConfig).origin laxHistory = 0 := by decide +kernel
    have hnear : ∀ y ∈ laxHistory.filterMap Op.newest?, (0 : SeqNum).gap y < 2147483648 := by
      decide +kernel
    rw [horigin]
    exact hnear x (List.mem_filterMap.2 ⟨op, hop, hx⟩)

/-- The trails differ at the end, and all that shows is the same. -/
theorem reclaiming_unseen_small :
    singleConfig.1.groupSize = 1 ∧ pairSender.Feeds (create smallTsi singleConfig) laxHistory ∧
      let w := create smallTsi singleConfig
      (w.run tidyHistory).trail ≠ (w.run laxHistory).trail ∧
        w.shown tidyHistory = w.shown laxHistory ∧
        (w.run tidyHistory).view = (w.run laxHistory).view := by
  have apart : ((create smallTsi singleConfig).run tidyHistory).trail ≠
      ((create smallTsi singleConfig).run laxHistory).trail := by decide +kernel
  have same : unreclaimed laxHistory = laxHistory :=
    List.filter_eq_self.2 fun _ hop => (List.mem_filter.1 hop).2
  have feeds := feeds_laxHistory
  refine ⟨by decide, feeds, apart, ?_⟩
  rw [← same] at feeds
  exact reclaiming_unseen smallTsi (by decide) feeds same.symm (List.prefix_refl laxHistory)
    (List.prefix_refl tidyHistory) same.symm

end Window

end ReliableMulticast
