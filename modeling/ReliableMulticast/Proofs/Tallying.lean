import ReliableMulticast.Proofs.Accounts
import ReliableMulticast.Proofs.Firing
import ReliableMulticast.Proofs.Noticing
import ReliableMulticast.Proofs.Service

/-!
# What a receiver passes on

A receiver passes on every message that it reads and tells every loss that a read told
(`messagesIn_caused`, `lossesIn_caused`), so what it said adds up to what the window counted
(`messages_eq_delivered`, `losses_eq_told`). The losses only add up as long as those that wait to be
told can be counted, and those that one read tells. A receiver leaves none waiting, one packet makes
no more than half of the number space wait, and the repair that follows a packet does not move the
window (`still_pushRepair`), so its calls outgrow neither count (`countable_arriveCalls`,
`countable_tickCalls`).
-/

namespace ReliableMulticast

/-! ### Events -/

def Event.message? : Event → Option Message
  | .message _ m => some m
  | _ => none

def Event.lost : Event → Nat
  | .loss _ count => count.toNat
  | _ => 0

/-- The messages among some events, in order. -/
def messagesIn (events : List Event) : List Message := events.filterMap Event.message?

/-- The losses that some events tell. -/
def lossesIn (events : List Event) : Nat := (events.map Event.lost).sum

namespace Window

variable {w w' : Window} {notes : List Note} {config : ValidConfig} {maxRead rounds : Nat}

theorem messagesIn_events (tsi : Tsi) (answer : Answer) :
    messagesIn (answer.events tsi) = answer.messages := by
  cases answer with
  | delivery d =>
    have hloss : (if 0 < d.lost then [Event.loss tsi d.lost] else []).filterMap Event.message? =
        [] := by
      split <;> rfl
    rw [messagesIn, Answer.events, List.filterMap_append, hloss, List.filterMap_map]
    exact List.filterMap_some
  | naks requests => simp [messagesIn, Answer.events, Answer.messages, Event.message?]
  | receipt | released | repaired | nothing => rfl

theorem lossesIn_events (tsi : Tsi) (answer : Answer) :
    lossesIn (answer.events tsi) = answer.lost := by
  cases answer with
  | delivery d =>
    have hloss : ((if 0 < d.lost then [Event.loss tsi d.lost] else []).map Event.lost).sum =
        d.lost.toNat := by
      split
      · rfl
      next hzero =>
        rw [UInt32.lt_iff_toNat_lt] at hzero
        exact (Nat.eq_zero_of_not_pos hzero).symm
    rw [lossesIn, Answer.events, List.map_append, List.sum_append, hloss, List.map_map]
    simp [Function.comp_def, Event.lost, Answer.lost]
  | naks requests => simp [lossesIn, Answer.events, Answer.lost, Event.lost, Function.comp_def]
  | receipt | released | repaired | nothing => rfl

/-- The messages that a receiver passes on are those that its calls handed out. -/
theorem messagesIn_caused (w : Window) (calls : List Op) :
    messagesIn (w.caused calls) = w.delivered calls := by
  rw [messagesIn, caused, delivered, List.filterMap_flatMap]
  exact congrArg (List.flatMap · _) (funext fun entry => messagesIn_events w.tsi entry.2)

/-- The losses that a receiver tells are those that its calls told, if it could count them. -/
theorem lossesIn_caused {calls : List Op}
    (fits : ∀ entry ∈ w.record calls, entry.2.overflows = false) :
    lossesIn (w.caused calls) = w.told calls := by
  rw [← sum_lost_of_fits fits, lossesIn, caused, List.flatMap_def, List.map_flatten, List.sum_flatten,
    List.map_map, List.map_map]
  exact congrArg List.sum (List.map_congr_left fun entry _ => lossesIn_events w.tsi entry.2)

/-! ### Parts -/

theorem delivered_cons (w : Window) (op : Op) (ops : List Op) :
    w.delivered (op :: ops) = (w.step op).2.messages ++ (w.step op).1.delivered ops :=
  List.flatMap_cons

theorem told_cons (w : Window) (op : Op) (ops : List Op) :
    w.told (op :: ops) = (w.step op).2.losses + (w.step op).1.told ops :=
  List.sum_cons

/-- The packets that a repair takes in hand out and tell nothing. -/
theorem told_repairs (w : Window) (g : Group) (decode : Decoder) (now : Timestamp)
    (numbers : List SeqNum) :
    w.delivered (Op.repairs g decode now numbers) = [] ∧
      w.told (Op.repairs g decode now numbers) = 0 := by
  induction numbers generalizing w with
  | nil => exact ⟨rfl, rfl⟩
  | cons s numbers ih =>
    rw [Op.repairs]
    split
    · exact ⟨rfl, rfl⟩
    next payload _ =>
      have later := ih (w.step (.pushRepair ⟨g.tsi, s, none, payload⟩ .parity now)).1
      rw [delivered_cons, told_cons, later.1, later.2]
      exact ⟨rfl, rfl⟩

/-- The parts of a history hand out and tell what the history does. -/
theorem told_parts (w : Window) (ops : List Op) :
    w.delivered (parts ops) = w.delivered ops ∧ w.told (parts ops) = w.told ops := by
  induction ops generalizing w with
  | nil => exact ⟨rfl, rfl⟩
  | cons op ops ih =>
    have hfirst : w.delivered op.parts = (w.step op).2.messages ∧
        w.told op.parts = (w.step op).2.losses := by
      cases op with
      | repair g decode now => exact w.told_repairs g decode now g.missing
      | _ => exact ⟨List.append_nil _, Nat.add_zero _⟩
    rw [parts, List.flatMap_cons, delivered_append, told_append, run_parts_single, hfirst.1,
      hfirst.2, delivered_cons, told_cons]
    exact ⟨congrArg _ (ih _).1, congrArg _ (ih _).2⟩

/-! ### What the window counted -/

theorem messages_loseApdu (w : Window) (s : SeqNum) :
    (w.loseApdu s).counters.messages = w.counters.messages := by
  obtain ⟨n, hn⟩ := w.counters_loseApdu s
  rw [hn]
  rfl

/-- A move counts the APDU that it hands out. -/
theorem Move.messages_eq (hm : w.Move notes w') :
    w'.counters.messages = w.counters.messages + (Note.messages notes).length := by
  cases hm with
  | aside _ _ _ _ messages => exact messages
  | fill p source now =>
    unfold fillSlot
    simp only
    split <;> split <;> rfl
  | lose s => exact w.messages_loseApdu s
  | collapse => exact w.messages_loseApdu w.commitLead
  | garble =>
    exact messages_loseApdu { w with counters := w.counters.addMalformed } w.commitLead
  | orphan =>
    obtain ⟨n, hn⟩ := w.counters_giveUpSlot w.commitLead
    rw [hn]
    rfl
  | reclaim => exact congrArg Counters.messages w.counters_dropTrail
  | overrun =>
    obtain ⟨_, _, _, _, _, _, he⟩ := w.givesWay_evictTrail
    rw [he]
    rfl
  | skip target =>
    obtain ⟨_, _, _, _, _, _, he⟩ := (w.givesWay_skipTo target).trans (givesWay_clampCommit _)
    rw [he]
    rfl
  | refuse | regroup | define | addPlaceholder | addPacket | wait | keep | pass | passLost | deliver
  | report | retain | free => rfl

theorem Moves.messages_eq (hm : w.Moves notes w') :
    w'.counters.messages = w.counters.messages + (Note.messages notes).length := by
  induction hm with
  | done => rfl
  | next first _ ih =>
    rw [ih, first.messages_eq, Note.messages_append, List.length_append, Nat.add_assoc]

/-- A live window counted the messages that it handed out. -/
theorem messages_eq_delivered (tsi : Tsi) (config : ValidConfig) {ops : List Op}
    (live : ((create tsi config).run ops).isGone = false) :
    ((create tsi config).run ops).counters.messages =
      ((create tsi config).delivered ops).length := by
  rw [← (told_parts _ ops).1, ← run_parts]
  rw [← run_parts] at live
  refine (history_induction (motive := fun ops => ((create tsi config).run ops).counters.messages =
    ((create tsi config).delivered ops).length) (sound_create tsi config) rfl ?_
    isPart_of_mem_parts live).2
  intro ops op notes _ hmoves htells ih
  rw [hmoves.messages_eq, ih, htells.messages, delivered_concat, List.length_append]

/-- The losses that a live window counted were told, or wait to be told, or are of slots that the
reader has not come to, if the losses that waited could be counted all the time. -/
theorem losses_eq_told (tsi : Tsi) (config : ValidConfig) {ops : List Op}
    (live : ((create tsi config).run ops).isGone = false)
    (unsaturated : (create tsi config).Unsaturated (parts ops)) :
    ((create tsi config).run ops).counters.losses = (create tsi config).told ops +
      ((create tsi config).run ops).unreportedLosses + ((create tsi config).run ops).lostAhead := by
  have hsound := sound_create tsi config
  have hahead : (create tsi config).lostAhead = 0 := lostAhead_of_empty hsound rfl
  rw [← (told_parts _ ops).2, ← run_parts]
  rw [← run_parts] at live
  refine (history_induction (motive := fun ops => (create tsi config).Unsaturated ops →
    ((create tsi config).run ops).counters.losses = (create tsi config).told ops +
      ((create tsi config).run ops).unreportedLosses + ((create tsi config).run ops).lostAhead)
    hsound (fun _ => ?_) ?_ isPart_of_mem_parts live).2 unsaturated
  · change 0 = 0 + 0 + (create tsi config).lostAhead
    rw [hahead]
  · intro ops op notes h hmoves htells ih unsaturated
    rw [unsaturated_append] at unsaturated
    have hdrops := htells.drops_le hmoves h (run_concat _ ops op ▸ unsaturated.2.1)
    have hunreported := hmoves.unreported_eq h hdrops
    have hlosses := hmoves.losses_eq h
    have htold := htells.told
    have hsofar := ih unsaturated.1
    rw [told_concat]
    omega

/-! ### Windows at work -/

/-- A live window that kept its rules and can still count what waits to be told. -/
structure Running (w : Window) : Prop where
  sound : w.Sound
  live : w.isGone = false
  counted : w.unreportedLosses ≤ maxReported

theorem running_create (tsi : Tsi) (config : ValidConfig) : (create tsi config).Running :=
  ⟨sound_create tsi config, rfl, Nat.zero_le _⟩

theorem Running.step (h : w.Running) {op : Op} (part : op.isPart) (stays : op ≠ .shutdown) :
    (w.step op).1.Running := by
  obtain ⟨notes, hmoves, -⟩ := step_spec_of_ne h.sound h.live part stays
  exact ⟨hmoves.sound h.sound, hmoves.keeps.isGone.trans h.live,
    hmoves.unreported_le h.sound h.counted⟩

theorem Running.run (h : w.Running) {ops : List Op} (stays : ∀ op ∈ ops, op ≠ .shutdown) :
    (w.run ops).Running := by
  have hparts : ∀ part ∈ parts ops, part.isPart ∧ part ≠ .shutdown := by
    intro part hpart
    obtain ⟨op, hop, hmem⟩ := List.mem_flatMap.1 hpart
    exact ⟨isPart_of_mem_parts part hpart, Op.ne_shutdown_of_mem_parts (stays op hop) part hmem⟩
  rw [← run_parts]
  generalize parts ops = ops at hparts
  induction ops generalizing w with
  | nil => exact h
  | cons op ops ih =>
    obtain ⟨part, stays⟩ := hparts op (List.mem_cons_self ..)
    exact ih (h.step part stays) fun x hx => hparts x (List.mem_cons_of_mem op hx)

/-! ### Repairs stand still -/

theorem frame_fillSlot (w : Window) (slot : Slot) (p : Packet) (source : Option RepairSource)
    (now : Timestamp) : (w.fillSlot slot p source now).frame = w.frame :=
  w.frame_modify p.sequence fun slot => slot.fill p.payload p.fragment (source = some .parity)

theorem still_acceptData (defined : w.isDefined) {p : Packet} (behind : ¬ p.sequence.After w.lead)
    (source : Option RepairSource) (now : Timestamp) :
    (w.acceptData p source now).1.frame =
      { w.frame with commitLead := (w.acceptData p source now).1.commitLead } := by
  cases hm : w.isMalformed p with
  | true =>
    rw [acceptData_of_malformed hm]
    rfl
  | false =>
    have htakes := takes_acceptData hm source now
    rw [ensureDefined, if_pos defined] at htakes
    generalize w.acceptData p source now = answer at htakes
    cases htakes with
    | behind | lost | duplicate => rfl
    | ahead after => exact absurd after behind
    | @missing slot =>
      have hresolve := frame_resolve (w.fillSlot slot p source now)
      rwa [frame_fillSlot] at hresolve

/-- A packet that is not ahead of the lead does not move the window. -/
theorem still_pushRepair (defined : w.isDefined) {p : Packet} (behind : ¬ p.sequence.After w.lead)
    (source : RepairSource) (now : Timestamp) :
    (w.pushRepair p source now).1.frame =
      { w.frame with commitLead := (w.pushRepair p source now).1.commitLead } := by
  unfold pushRepair forSession
  split
  · rfl
  unfold whileLive
  split
  · rfl
  · exact still_acceptData defined behind (some source) now

/-- The missing members of a repairable group have slots. -/
theorem contains_of_mem_missing {s x : SeqNum} {g : Group} (hg : w.repairableGroup? s = some g)
    (hx : x ∈ g.missing) : w.slots.Contains x := by
  obtain ⟨member, hmember, rfl⟩ := List.mem_map.1 hx
  have hnumber : member.sequence ∈ w.groupNumbers s :=
    numbers_of_repairable hg ▸ List.mem_map_of_mem (List.mem_of_mem_filter hmember)
  obtain ⟨slot, found, -⟩ := (repairableGroup?_eq_some_iff.1 hg).1.usable _ hnumber
  exact contains_of_get? found

/-! ### Calls of a receiver -/

theorem ne_shutdown_of_mem_repairCalls {group : Option Group} {decoder : Option Decoder}
    {now : Timestamp} {op : Op} (hop : op ∈ repairCalls group decoder now) : op ≠ .shutdown := by
  unfold repairCalls at hop
  split at hop
  · rw [List.mem_singleton.1 hop]
    simp
  · cases hop

theorem ne_shutdown_of_mem_drainCalls {op : Op} (hop : op ∈ drainCalls maxRead rounds w) :
    op ≠ .shutdown := by
  induction rounds generalizing w with
  | zero => cases hop
  | succ rounds ih =>
    rw [drainCalls] at hop
    split at hop
    · cases hop
    · simp only at hop
      split at hop
      · rw [List.mem_singleton.1 hop]
        simp
      · rcases List.mem_cons.1 hop with rfl | hop
        · simp
        · rcases List.mem_cons.1 hop with rfl | hop
          · simp
          · exact ih hop

/-! ### Counting losses -/

/-- All losses can be counted in the course of some calls, those that wait to be told and those that
one read tells. -/
structure Countable (w : Window) (calls : List Op) : Prop where
  unsaturated : w.Unsaturated (parts calls)
  fits : ∀ entry ∈ w.record calls, entry.2.overflows = false

theorem Countable.nil (w : Window) : w.Countable [] := ⟨trivial, fun _ h => absurd h List.not_mem_nil⟩

theorem Countable.append {calls more : List Op} (h : w.Countable calls)
    (later : (w.run calls).Countable more) : w.Countable (calls ++ more) where
  unsaturated := by
    rw [parts_append, unsaturated_append, run_parts]
    exact ⟨h.unsaturated, later.unsaturated⟩
  fits := by
    rw [record_append]
    exact List.forall_mem_append.2 ⟨h.fits, later.fits⟩

theorem Countable.cons {op : Op} {calls : List Op} (part : op.isPart)
    (waiting : w.unreportedLosses + w.leaving (w.step op).1 ≤ maxReported)
    (told : (w.step op).2.overflows = false) (later : (w.step op).1.Countable calls) :
    w.Countable (op :: calls) where
  unsaturated := by
    rw [parts, List.flatMap_cons, Op.parts_of_isPart part]
    exact ⟨waiting, later.unsaturated⟩
  fits := List.forall_mem_cons.2 ⟨told, later.fits⟩

theorem leaving_le (w w' : Window) : w.leaving w' ≤ 2147483648 := by
  unfold leaving SeqNum.steps
  split
  · split
    next before => exact (SeqNum.before_iff.1 before).2
    · exact Nat.zero_le _
  · exact Nat.zero_le _

/-- Nothing leaves while the reader stays where it is. -/
theorem leaving_eq_zero (h : w'.Sound) (same : w'.commitTrail = w.commitTrail) :
    w.leaving w' = 0 := by
  rw [leaving, SeqNum.steps, ← same, if_neg h.not_before_trail, ite_self]

/-- A repair of numbers that have slots saturates nothing, as it leaves what waits to be told. -/
theorem Running.unsaturated_repairs (h : w.Running) (g : Group) (decode : Decoder)
    (now : Timestamp) {numbers : List SeqNum} (held : ∀ s ∈ numbers, w.slots.Contains s) :
    w.Unsaturated (Op.repairs g decode now numbers) ∧
      (w.run (Op.repairs g decode now numbers)).unreportedLosses = w.unreportedLosses := by
  induction numbers generalizing w with
  | nil => exact ⟨trivial, rfl⟩
  | cons s numbers ih =>
    rw [Op.repairs]
    split
    · exact ⟨trivial, rfl⟩
    next payload _ =>
      have hstep : (w.step (.pushRepair ⟨g.tsi, s, none, payload⟩ .parity now)).1.Running :=
        h.step rfl (by simp)
      have hs := held s (List.mem_cons_self ..)
      obtain ⟨slot, found⟩ := SlotRing.exists_get? hs
      have hstill := still_pushRepair (p := ⟨g.tsi, s, none, payload⟩)
        (h.sound.isDefined_of_get? found) hs.2 .parity now
      have hsame := fun x => contains_congr (x := x)
        (congrArg Frame.trail hstill) (congrArg Frame.size hstill)
      obtain ⟨later, hunreported⟩ :=
        ih hstep fun x hx => (hsame x).2 (held x (List.mem_cons_of_mem s hx))
      refine ⟨⟨?_, later⟩, hunreported.trans (congrArg Frame.unreportedLosses hstill)⟩
      rw [leaving_eq_zero hstep.sound (congrArg Frame.commitTrail hstill)]
      exact h.counted

/-- A read leaves nothing untold. -/
theorem unreportedLosses_read (live : w.isGone = false) (count : Nat) :
    (w.step (.read count)).1.unreportedLosses = 0 := by
  rw [step_read live]
  exact unreportedLosses_readReady w count

/-- What a window holds is too little to make a count run over that is half full at most. -/
theorem Running.fits_step (h : w.Running) (low : w.unreportedLosses ≤ 2147483648) (op : Op) :
    (w.step op).2.overflows = false := by
  cases op with
  | read count =>
    rw [step_read h.live]
    refine Bool.eq_false_iff.2 fun overflows => ?_
    have hmany := (h.sound.overflows_readReady count).1 overflows
    have hreadable := h.sound.readableLosses_le
    unfold maxReported at hmany
    omega
  | _ => rfl

/-- If nothing waited to be told before a call, no more waits after it than left with it. -/
theorem Running.low_step (h : w.Running) (told : w.unreportedLosses = 0) {op : Op} (part : op.isPart)
    (stays : op ≠ .shutdown) : (w.step op).1.unreportedLosses ≤ 2147483648 := by
  have hstep := h.step part stays
  by_cases hread : ∃ count, op = .read count
  · obtain ⟨count, rfl⟩ := hread
    rw [unreportedLosses_read h.live]
    exact Nat.zero_le _
  · have unread : ∀ count, op ≠ .read count := fun count he => hread ⟨count, he⟩
    have hleaving := w.leaving_le (w.step op).1
    rw [unreportedLosses_step h.sound h.live part hstep.live unread h.counted]
    omega

/-- If nothing waited before it, a call may let as much leave as it likes. -/
theorem Running.countable_cons (h : w.Running) (told : w.unreportedLosses = 0) {op : Op}
    {calls : List Op} (part : op.isPart) (later : (w.step op).1.Countable calls) :
    w.Countable (op :: calls) := by
  have hleaving := w.leaving_le (w.step op).1
  refine .cons part ?_ (h.fits_step (told ▸ Nat.zero_le _) op) later
  rw [told]
  unfold maxReported
  omega

theorem Running.countable_drainCalls (h : w.Running) (low : w.unreportedLosses ≤ 2147483648)
    (maxRead rounds : Nat) : w.Countable (drainCalls maxRead rounds w) := by
  induction rounds generalizing w with
  | zero => exact .nil w
  | succ rounds ih =>
    have hread : (w.step (.read maxRead)).1.Running := h.step rfl (by simp)
    have told := unreportedLosses_read h.live maxRead
    have waiting : w.unreportedLosses + w.leaving (w.step (.read maxRead)).1 ≤ maxReported := by
      rw [leaving_read h.sound h.live]
      exact h.counted
    rw [drainCalls]
    split
    · exact .nil w
    · simp only
      split
      · exact .cons rfl waiting (h.fits_step low _) (.nil _)
      · refine .cons rfl waiting (h.fits_step low _) (hread.countable_cons told rfl ?_)
        exact ih (hread.step rfl (by simp)) (hread.low_step told rfl (by simp))

/-- Nothing waits to be told in a window that has nothing to read. -/
theorem Running.told_of_idle (h : w.Running) (idle : w.hasPending = false) :
    w.unreportedLosses = 0 := by
  have hzero := (hasPending_eq_false_iff h.live).1 idle
  unfold toRead at hzero
  omega

/-- The losses of the repair of a group that the window has can be counted. It adds none to those that
wait. -/
theorem Running.countable_repairCalls (h : w.Running) (decoder : Option Decoder) (now : Timestamp)
    {group : Option Group} (here : ∀ g, group = some g → ∃ s, w.repairableGroup? s = some g) :
    w.Countable (repairCalls group decoder now) ∧
      (w.run (repairCalls group decoder now)).unreportedLosses = w.unreportedLosses := by
  unfold repairCalls
  split
  next g decode =>
    obtain ⟨s, hs⟩ := here g rfl
    have hparts : parts [.repair g decode now] = Op.repairs g decode now g.missing :=
      List.append_nil _
    obtain ⟨unsaturated, hunreported⟩ :=
      h.unsaturated_repairs g decode now fun x => contains_of_mem_missing hs
    rw [← hparts] at unsaturated hunreported
    rw [run_parts] at hunreported
    exact ⟨⟨unsaturated, List.forall_mem_singleton.2 rfl⟩, hunreported⟩
  · exact ⟨.nil w, rfl⟩

/-- So can those of what follows the arrival of a packet, if not much waited to be told before. -/
theorem Running.countable_settleCalls (h : w.Running) (low : w.unreportedLosses ≤ 2147483648)
    (maxRead : Nat) (decoder : Option Decoder) (now : Timestamp) {receipt : Receipt}
    (here : ∀ g, receipt.repairable = some g → ∃ s, w.repairableGroup? s = some g) :
    w.Countable (w.settleCalls maxRead decoder now receipt) := by
  have hrun : (w.run (repairCalls receipt.repairable decoder now)).Running :=
    h.run fun _ => ne_shutdown_of_mem_repairCalls
  obtain ⟨hrepairs, hunreported⟩ := h.countable_repairCalls decoder now here
  rw [settleCalls]
  exact hrepairs.append (hrun.countable_drainCalls (hunreported.trans_le low) ..)

/-- What a receipt reports is a group that the window has then. -/
theorem exists_of_receive {call : Op} {g : Group}
    (hg : (w.receive call).2.repairable = some g) :
    ∃ s, (w.step call).1.repairableGroup? s = some g := by
  have hreported : (w.step call).2.reported = some g := by
    rw [receive] at hg
    cases hanswer : (w.step call).2 with
    | receipt r =>
      rw [hanswer] at hg
      exact hg
    | _ =>
      rw [hanswer] at hg
      cases hg
  exact (exists_of_reported hreported).2.2.2

/-- The losses of an arrival can be counted if nothing was left to read. -/
theorem Running.countable_arriveCalls (h : w.Running) (idle : w.hasPending = false)
    (maxRead : Nat) (decoder : Option Decoder) (now : Timestamp) {call : Op} (part : call.isPart)
    (stays : call ≠ .shutdown) : w.Countable (w.arriveCalls maxRead decoder now call) :=
  have told := h.told_of_idle idle
  h.countable_cons told part ((h.step part stays).countable_settleCalls
    (h.low_step told part stays) maxRead decoder now fun g => exists_of_receive (g := g))

/-- So can those of a tick. -/
theorem Running.countable_tickCalls (h : w.Running) (idle : w.hasPending = false)
    (maxRead : Nat) (now : Timestamp) : w.Countable (w.tickCalls maxRead now) :=
  have told := h.told_of_idle idle
  have hsweep : (w.step (.sweep now)).1.Running := h.step rfl (by simp)
  h.countable_cons told rfl
    (hsweep.countable_drainCalls (h.low_step told rfl (by simp)) ..)

end Window

end ReliableMulticast
