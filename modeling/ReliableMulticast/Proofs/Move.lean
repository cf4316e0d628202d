import Mathlib.Algebra.Order.Ring.Nat
import Mathlib.Logic.Relation
import ReliableMulticast.Proofs.Losing
import ReliableMulticast.Window.Operation

/-!
# Moves of a window

Everything an operation does to a window is a sequence of moves, and `Move` lists them with the
conditions under which they happen. A move carries the notes that a record of the window would take:
a packet stored, an APDU delivered, a number passed or dropped. What a window keeps and what it
counts is proved once for each move, and as most moves leave all in its place, what is about places
only is proved from what the frame sees of them (`Move.framed`); `Moves` carries it over to operations
and histories.
-/

namespace ReliableMulticast

/-- What a record of a window takes down. -/
inductive Note where
  /-- A data packet was stored in a slot. -/
  | stored (p : Packet)
  /-- An APDU was handed out. -/
  | delivered (m : Message)
  /-- A slot given up was passed by the reader. -/
  | passed
  /-- So many numbers left the window undelivered. -/
  | dropped (count : Nat)
  /-- So many losses outside the readable part were told to the reader. -/
  | reported (count : Nat)
  /-- A number ahead of the reader was given up. -/
  | gaveUp (s : SeqNum)
  /-- A parity packet was kept in a slot. -/
  | kept (p : Packet)
  /-- A packet or a status report was refused as malformed. -/
  | refused
  /-- The group size was set. -/
  | regrouped
  /-- The data of a delivered slot was dropped. -/
  | freed (s : SeqNum)

namespace Note

/-- The packets stored, in order. -/
def packets (notes : List Note) : List Packet :=
  notes.filterMap fun
    | .stored p => some p
    | _ => none

/-- The APDUs handed out, in order. -/
def messages (notes : List Note) : List Message :=
  notes.filterMap fun
    | .delivered m => some m
    | _ => none

/-- The losses told to the reader. -/
def told (notes : List Note) : Nat :=
  (notes.map fun
    | .passed => 1
    | .reported n => n
    | _ => 0).sum

/-- The numbers that left the window undelivered. -/
def drops (notes : List Note) : Nat :=
  (notes.map fun
    | .dropped n => n
    | _ => 0).sum

/-- The slots given up that were passed. -/
def passes (notes : List Note) : Nat :=
  (notes.map fun
    | .passed => 1
    | _ => 0).sum

/-- The numbers given up. -/
def givenUp (notes : List Note) : List SeqNum :=
  notes.filterMap fun
    | .gaveUp s => some s
    | _ => none

/-- The parity packets kept, in order. -/
def parities (notes : List Note) : List Packet :=
  notes.filterMap fun
    | .kept p => some p
    | _ => none

/-- How often something was refused as malformed. -/
def refusals (notes : List Note) : Nat :=
  (notes.map fun
    | .refused => 1
    | _ => 0).sum

/-- How often the group size was set. -/
def regroups (notes : List Note) : Nat :=
  (notes.map fun
    | .regrouped => 1
    | _ => 0).sum

/-- Nothing was read, told or dropped, and the group size was not set. -/
structure Quiet (notes : List Note) : Prop where
  messages : messages notes = []
  told : told notes = 0
  drops : drops notes = 0
  passes : passes notes = 0
  regroups : regroups notes = 0

/-- The numbers whose data was dropped. -/
def frees (notes : List Note) : List SeqNum :=
  notes.filterMap fun
    | .freed s => some s
    | _ => none

@[simp] theorem packets_append (notes more : List Note) :
    packets (notes ++ more) = packets notes ++ packets more :=
  List.filterMap_append

@[simp] theorem messages_append (notes more : List Note) :
    messages (notes ++ more) = messages notes ++ messages more :=
  List.filterMap_append

@[simp] theorem told_append (notes more : List Note) : told (notes ++ more) = told notes + told more := by
  rw [told, List.map_append, List.sum_append, told, told]

@[simp] theorem drops_append (notes more : List Note) : drops (notes ++ more) = drops notes + drops more := by
  rw [drops, List.map_append, List.sum_append, drops, drops]

@[simp] theorem passes_append (notes more : List Note) :
    passes (notes ++ more) = passes notes + passes more := by
  rw [passes, List.map_append, List.sum_append, passes, passes]

@[simp] theorem givenUp_append (notes more : List Note) :
    givenUp (notes ++ more) = givenUp notes ++ givenUp more :=
  List.filterMap_append

@[simp] theorem parities_append (notes more : List Note) :
    parities (notes ++ more) = parities notes ++ parities more :=
  List.filterMap_append

@[simp] theorem refusals_append (notes more : List Note) :
    refusals (notes ++ more) = refusals notes + refusals more := by
  rw [refusals, List.map_append, List.sum_append, refusals, refusals]

@[simp] theorem regroups_append (notes more : List Note) :
    regroups (notes ++ more) = regroups notes + regroups more := by
  rw [regroups, List.map_append, List.sum_append, regroups, regroups]

@[simp] theorem frees_append (notes more : List Note) :
    frees (notes ++ more) = frees notes ++ frees more :=
  List.filterMap_append

end Note

/-- The steps in the life of a slot. -/
inductive SlotState.Next : SlotState → SlotState → Prop
  | request : Next .backOff .waitNcf
  | confirm : Next .waitNcf .waitData
  | keep {state : SlotState} (pending : state.repairPending) (bare : state ≠ .haveParity) :
      Next state .haveParity
  | fill {state : SlotState} (pending : state.repairPending) : Next state .haveData
  | deliver : Next .haveData .committed
  | retain : Next .committed .retained
  | lose {state : SlotState} (undelivered : state.repairPending ∨ state = .haveData) :
      Next state .lost

/-- The second state comes after the first, or is the same. -/
def SlotState.Onward : SlotState → SlotState → Prop := Relation.ReflTransGen SlotState.Next

/-- The new slot misses its packet if the old one does, and knows the same of it. -/
structure Slot.Waits (old new : Slot) : Prop where
  pending : old.state.repairPending → new.state.repairPending
  onward : old.state.repairPending → old.state.Onward new.state
  fragment : new.fragment = old.fragment
  payload : new.payload = old.payload
  parity : new.parity = old.parity
  created : new.created = old.created

namespace Window

/-- One move of a window, with its notes. -/
inductive Move (w : Window) : List Note → Window → Prop
  /-- Something other than slots, places and losses changes. -/
  | aside {w' : Window} (frame : w'.frame = w.frame) (slots : w'.slots = w.slots)
      (losses : w'.counters.losses = w.counters.losses)
      (malformed : w'.counters.malformed = w.counters.malformed)
      (messages : w'.counters.messages = w.counters.messages) : Move w [] w'
  | refuse : Move w [.refused] { w with counters := w.counters.addMalformed }
  | regroup (size shift : Nat) (accepted : w.acceptsGroupSize size shift)
      (idle : w.holdsGroupData = false) : Move w [.regrouped] { w with groupSize := size }
  | define (trail : SeqNum) (undefined : w.isDefined = false) : Move w [] (w.define trail)
  | addPlaceholder (now : Timestamp) (defined : w.isDefined) (room : w.slots.size < w.capacity) :
      Move w [] (Window.addPlaceholder now w w.next)
  | addPacket (p : Packet) (now : Timestamp) (defined : w.isDefined) (next : p.sequence = w.next)
      (room : w.slots.size < w.capacity) : Move w [.stored p] (w.append (.ofPacket p now))
  | fill {slot : Slot} (p : Packet) (source : Option RepairSource) (now : Timestamp)
      (found : w.slots.get? p.sequence = some slot) (pending : slot.state.repairPending) :
      Move w [.stored p] (w.fillSlot slot p source now)
  /-- A slot that waits for its packet goes on waiting in another way. -/
  | wait {slot : Slot} (s : SeqNum) (change : Slot → Slot) (found : w.slots.get? s = some slot)
      (pending : slot.state.repairPending) (waits : slot.Waits (change slot)) :
      Move w [] (w.modify s change)
  /-- A slot that waits for its packet takes in a parity packet of its group, which the lead has
  passed. -/
  | keep {slot : Slot} (s : SeqNum) (p : Packet) (found : w.slots.get? s = some slot)
      (pending : slot.state.repairPending) (bare : slot.parity = none)
      (member : s ∈ w.groupNumbers p.sequence) (whole : ¬ (w.groupLast p.sequence).After w.lead) :
      Move w [.kept p] (w.modify s (·.keepParity
        ⟨UInt32.ofNat (w.groupIndex p.sequence), p.payload⟩))
  | lose (s : SeqNum) (ahead : w.Ahead s) : Move w [.gaveUp s] (w.loseApdu s)
  /-- An APDU at the front that lost a fragment is given up. -/
  | collapse {slot : Slot} {f : Fragment} (found : w.slots.get? w.commitLead = some slot)
      (held : slot.state = .haveData) (fragment : slot.fragment = some f)
      (here : f.apduFirst = w.commitLead)
      (broken : w.scanApdu w.commitLead f.totalLength.toNat = .lost) :
      Move w [] (w.loseApdu w.commitLead)
  /-- An APDU at the front whose fragments contradict each other is given up. -/
  | garble {slot : Slot} {f : Fragment} (found : w.slots.get? w.commitLead = some slot)
      (held : slot.state = .haveData) (fragment : slot.fragment = some f)
      (here : f.apduFirst = w.commitLead)
      (broken : w.scanApdu w.commitLead f.totalLength.toNat = .malformed) :
      Move w [] ({ w with counters := w.counters.addMalformed }.loseApdu w.commitLead)
  /-- A fragment at the front whose APDU starts elsewhere is given up. -/
  | orphan {slot : Slot} {f : Fragment} (found : w.slots.get? w.commitLead = some slot)
      (held : slot.state = .haveData) (fragment : slot.fragment = some f)
      (elsewhere : f.apduFirst ≠ w.commitLead) : Move w [] (w.giveUpSlot w.commitLead)
  /-- The delivered slot at the trail leaves. -/
  | reclaim (behind : 0 < w.place w.commitTrail) : Move w [] w.dropTrail
  /-- The undelivered slot at the trail leaves. -/
  | overrun (front : w.place w.commitTrail = 0) (nonempty : 0 < w.slots.size) :
      Move w [.dropped 1] w.evictTrail
  /-- The empty window jumps ahead. -/
  | skip (target : SeqNum) (defined : w.isDefined) (empty : w.slots.size = 0)
      (ahead : w.trail.Before target) :
      Move w [.dropped (w.trail.gap target)] (w.skipTo target).clampCommit
  /-- The readable part grows by a settled stretch. -/
  | pass (count : Nat) (inside : w.place w.commitLead + count ≤ w.slots.size)
      (settled : Settled w.commitLead (w.slots.slice w.commitLead count)) :
      Move w [] (w.passFront count)
  | passLost {slot : Slot} (unread : w.commitTrail ≠ w.commitLead)
      (found : w.slots.get? w.commitTrail = some slot) (lost : slot.state = .lost) :
      Move w [.passed] { w with commitTrail := w.commitTrail.next }
  | deliver {slot : Slot} (count : Nat) (unread : w.commitTrail ≠ w.commitLead)
      (found : w.slots.get? w.commitTrail = some slot) (held : slot.state ≠ .lost)
      (whole : w.apduCount? w.commitTrail slot = some count) :
      Move w [.delivered (w.deliver count).2] (w.deliver count).1
  | report : Move w [.reported w.unreportedLosses] { w with unreportedLosses := 0 }
  | retain (s : SeqNum) (behind : w.place s < w.place w.commitTrail)
      (needed : w.isRetained s) : Move w [] (w.modify s Slot.retain)
  | free (s : SeqNum) (behind : w.place s < w.place w.commitTrail)
      (unneeded : w.isRetained s = false) : Move w [.freed s] (w.modify s Slot.dropPayload)

/-- Moves one after the other, with all their notes. -/
inductive Moves : Window → List Note → Window → Prop
  | done (w : Window) : Moves w [] w
  | next {w w' w'' : Window} {notes more : List Note} (first : Move w notes w')
      (later : Moves w' more w'') : Moves w (notes ++ more) w''

theorem Move.moves {w w' : Window} {notes : List Note} (h : w.Move notes w') :
    w.Moves notes w' := by
  have := Moves.next h (.done w')
  rwa [List.append_nil] at this

theorem Moves.trans {w w' w'' : Window} {notes more : List Note} (h : w.Moves notes w')
    (h' : w'.Moves more w'') : w.Moves (notes ++ more) w'' := by
  induction h with
  | done => exact h'
  | next first _ ih =>
    rw [List.append_assoc]
    exact .next first (ih h')

/-- Moves without notes before others add nothing to the record. -/
theorem Moves.silent_trans {w w' w'' : Window} {notes : List Note} (h : w.Moves [] w')
    (h' : w'.Moves notes w'') : w.Moves notes w'' :=
  h.trans h'

theorem Moves.trans_silent {w w' w'' : Window} {notes : List Note} (h : w.Moves notes w')
    (h' : w'.Moves [] w'') : w.Moves notes w'' := by
  have := h.trans h'
  rwa [List.append_nil] at this

/-! ### The ends of the window -/

/-- Reclaiming the trail changes the slots only. -/
theorem dropTrail_eq (w : Window) : w.dropTrail = { w with slots := w.dropTrail.slots } := by
  unfold dropTrail
  split <;> rfl

@[simp] theorem commitTrail_dropTrail (w : Window) : w.dropTrail.commitTrail = w.commitTrail := by
  rw [dropTrail_eq]

@[simp] theorem commitLead_dropTrail (w : Window) : w.dropTrail.commitLead = w.commitLead := by
  rw [dropTrail_eq]

@[simp] theorem unreportedLosses_dropTrail (w : Window) :
    w.dropTrail.unreportedLosses = w.unreportedLosses := by
  rw [dropTrail_eq]

@[simp] theorem counters_dropTrail (w : Window) : w.dropTrail.counters = w.counters := by
  rw [dropTrail_eq]

/-- The window makes room: slots leave with their timers, the readable part may move along, and losses
are counted. -/
def GivesWay (w w' : Window) : Prop :=
  ∃ slots queues commitTrail commitLead unreportedLosses losses,
    w' = { w with slots, queues, commitTrail, commitLead, unreportedLosses,
                  counters := w.counters.addLosses losses }

theorem GivesWay.refl (w : Window) : w.GivesWay w := ⟨_, _, _, _, _, 0, rfl⟩

theorem GivesWay.trans {w w' w'' : Window} (h : w.GivesWay w') (h' : w'.GivesWay w'') :
    w.GivesWay w'' := by
  obtain ⟨_, _, _, _, _, m, rfl⟩ := h
  obtain ⟨slots, queues, commitTrail, commitLead, unreportedLosses, n, rfl⟩ := h'
  exact ⟨slots, queues, commitTrail, commitLead, unreportedLosses, m + n, by
    simp only [addLosses_addLosses]⟩

theorem givesWay_evictTrail (w : Window) : w.GivesWay w.evictTrail := by
  unfold evictTrail
  split
  · exact .refl w
  · simp only
    split
    · exact ⟨_, _, _, _, _, 0, rfl⟩
    · exact ⟨_, _, _, _, _, _, rfl⟩

theorem givesWay_evict (n : Nat) (w : Window) : w.GivesWay (evict n w) := by
  induction n generalizing w with
  | zero => exact .refl w
  | succ n ih => exact w.givesWay_evictTrail.trans (ih w.evictTrail)

theorem givesWay_skipTo (w : Window) (target : SeqNum) : w.GivesWay (w.skipTo target) := by
  unfold skipTo
  split
  · exact ⟨_, _, _, _, _, _, rfl⟩
  · exact .refl w

theorem givesWay_clampCommit (w : Window) : w.GivesWay w.clampCommit := ⟨_, _, _, _, _, 0, rfl⟩

theorem givesWay_makeRoom (w : Window) (last : SeqNum) : w.GivesWay (w.makeRoom last) :=
  ((givesWay_evict _ w).trans (givesWay_skipTo _ _)).trans (givesWay_clampCommit _)

/-- New placeholders change the slots and their timers only. -/
theorem addPlaceholders_eq (w : Window) (stop : SeqNum) (now : Timestamp) :
    ∃ slots queues fault, w.addPlaceholders stop now = { w with slots, queues, fault } := by
  have added : ∀ (numbers : List SeqNum) (v : Window),
      ∃ slots fault, numbers.foldl (addPlaceholder now) v = { v with slots, fault } := by
    intro numbers
    induction numbers with
    | nil => exact fun v => ⟨_, _, rfl⟩
    | cons s numbers ih =>
      intro v
      obtain ⟨slots, fault, he⟩ := ih (addPlaceholder now v s)
      exact ⟨slots, fault, he⟩
  obtain ⟨slots, fault, he⟩ := added (w.next.upTo stop) w
  exact ⟨slots, _, fault, by rw [addPlaceholders, he]⟩

/-! ### Moves as the frame sees them -/

/-- What a move does to the frame of a window. Most moves leave all in its place. -/
inductive Framed (w : Window) : List Note → Window → Prop
  | same {w' : Window} {notes : List Note} (frame : w'.frame = w.frame) (quiet : Note.Quiet notes) :
      Framed w notes w'
  | regroup (size shift : Nat) (accepted : w.acceptsGroupSize size shift)
      (idle : w.holdsGroupData = false) : Framed w [.regrouped] { w with groupSize := size }
  | define (trail : SeqNum) (undefined : w.isDefined = false) : Framed w [] (w.define trail)
  | append {notes : List Note} (slot : Slot) (quiet : Note.Quiet notes) (defined : w.isDefined)
      (next : slot.sequence = w.next) (room : w.slots.size < w.capacity) :
      Framed w notes (w.append slot)
  | reclaim (behind : 0 < w.place w.commitTrail) : Framed w [] w.dropTrail
  | overrun (front : w.place w.commitTrail = 0) (nonempty : 0 < w.slots.size) :
      Framed w [.dropped 1] w.evictTrail
  | skip (target : SeqNum) (defined : w.isDefined) (empty : w.slots.size = 0)
      (ahead : w.trail.Before target) :
      Framed w [.dropped (w.trail.gap target)] (w.skipTo target).clampCommit
  | pass (count : Nat) (inside : w.place w.commitLead + count ≤ w.slots.size)
      (settled : Settled w.commitLead (w.slots.slice w.commitLead count)) :
      Framed w [] (w.passFront count)
  | passLost {slot : Slot} (unread : w.commitTrail ≠ w.commitLead)
      (found : w.slots.get? w.commitTrail = some slot) (lost : slot.state = .lost) :
      Framed w [.passed] { w with commitTrail := w.commitTrail.next }
  | deliver {slot : Slot} (count : Nat) (unread : w.commitTrail ≠ w.commitLead)
      (found : w.slots.get? w.commitTrail = some slot) (held : slot.state ≠ .lost)
      (whole : w.apduCount? w.commitTrail slot = some count) :
      Framed w [.delivered (w.deliver count).2] (w.deliver count).1
  | report : Framed w [.reported w.unreportedLosses] { w with unreportedLosses := 0 }

theorem Move.framed {w w' : Window} {notes : List Note} (h : w.Move notes w') : w.Framed notes w' := by
  have nothing : Note.Quiet [] := ⟨rfl, rfl, rfl, rfl, rfl⟩
  cases h with
  | aside frame => exact .same frame nothing
  | refuse => exact .same rfl ⟨rfl, rfl, rfl, rfl, rfl⟩
  | regroup size shift accepted idle => exact .regroup size shift accepted idle
  | define trail undefined => exact .define trail undefined
  | addPlaceholder now defined room => exact .append _ nothing defined rfl room
  | addPacket p now defined next room => exact .append _ ⟨rfl, rfl, rfl, rfl, rfl⟩ defined next room
  | fill p => exact .same (frame_modify w p.sequence _) ⟨rfl, rfl, rfl, rfl, rfl⟩
  | wait s change => exact .same (frame_modify w s change) nothing
  | keep s => exact .same (frame_modify w s _) ⟨rfl, rfl, rfl, rfl, rfl⟩
  | lose s => exact .same (frame_loseApdu w s) ⟨rfl, rfl, rfl, rfl, rfl⟩
  | collapse => exact .same (frame_loseApdu w w.commitLead) nothing
  | garble => exact .same (frame_loseApdu _ w.commitLead) nothing
  | orphan => exact .same (frame_giveUpSlot w w.commitLead) nothing
  | reclaim behind => exact .reclaim behind
  | overrun front nonempty => exact .overrun front nonempty
  | skip target defined empty ahead => exact .skip target defined empty ahead
  | pass count inside settled => exact .pass count inside settled
  | passLost unread found lost => exact .passLost unread found lost
  | deliver count unread found held whole => exact .deliver count unread found held whole
  | report => exact .report
  | retain s => exact .same (frame_modify w s Slot.retain) nothing
  | free s => exact .same (frame_modify w s Slot.dropPayload) ⟨rfl, rfl, rfl, rfl, rfl⟩

/-! ### What no move changes -/

/-- A window keeps its session and its configuration, and once it has a place it has one. -/
structure Keeps (w w' : Window) : Prop where
  tsi : w'.tsi = w.tsi
  config : w'.config = w.config
  isGone : w'.isGone = w.isGone
  isDefined : w.isDefined → w'.isDefined

theorem Keeps.of_frame_eq {w w' : Window} (h : w'.frame = w.frame) : w.Keeps w' where
  tsi := congrArg Frame.tsi h
  config := congrArg Frame.config h
  isGone := congrArg Frame.isGone h
  isDefined := fun hd => (congrArg Frame.isDefined h).trans hd

theorem Keeps.trans {w w' w'' : Window} (h : w.Keeps w') (h' : w'.Keeps w'') : w.Keeps w'' :=
  ⟨h'.tsi.trans h.tsi, h'.config.trans h.config, h'.isGone.trans h.isGone,
    fun hd => h'.isDefined (h.isDefined hd)⟩

theorem GivesWay.keeps {w w' : Window} (h : w.GivesWay w') : w.Keeps w' := by
  obtain ⟨_, _, _, _, _, _, rfl⟩ := h
  exact ⟨rfl, rfl, rfl, id⟩

theorem GivesWay.groupSize_eq {w w' : Window} (h : w.GivesWay w') : w'.groupSize = w.groupSize := by
  obtain ⟨_, _, _, _, _, _, rfl⟩ := h
  rfl

theorem Move.keeps {w w' : Window} {notes : List Note} (h : w.Move notes w') : w.Keeps w' := by
  cases h.framed with
  | same frame => exact .of_frame_eq frame
  | define => exact ⟨rfl, rfl, rfl, fun _ => rfl⟩
  | reclaim =>
    rw [dropTrail_eq]
    exact ⟨rfl, rfl, rfl, id⟩
  | overrun => exact w.givesWay_evictTrail.keeps
  | skip target => exact ((w.givesWay_skipTo target).trans (givesWay_clampCommit _)).keeps
  | deliver count =>
    have hf := frame_deliver w count
    exact ⟨congrArg Frame.tsi hf, congrArg Frame.config hf, congrArg Frame.isGone hf,
      fun hd => (congrArg Frame.isDefined hf).trans hd⟩
  | regroup | append | pass | passLost | report => exact ⟨rfl, rfl, rfl, id⟩

theorem Moves.keeps {w w' : Window} {notes : List Note} (h : w.Moves notes w') : w.Keeps w' := by
  induction h with
  | done => exact ⟨rfl, rfl, rfl, id⟩
  | next first _ ih => exact first.keeps.trans ih

/-- The group size changes only where the notes say so, in a window that keeps nothing for its
groups. -/
theorem Move.groupSize_eq {w w' : Window} {notes : List Note} (h : w.Move notes w')
    (steady : w.holdsGroupData ∨ Note.regroups notes = 0) : w'.groupSize = w.groupSize := by
  cases h.framed with
  | same frame => exact congrArg Frame.groupSize frame
  | regroup size shift _ idle =>
    rcases steady with holds | steady
    · cases holds.symm.trans idle
    · cases steady
  | reclaim => rw [dropTrail_eq]
  | overrun => exact w.givesWay_evictTrail.groupSize_eq
  | skip target => exact ((w.givesWay_skipTo target).trans (givesWay_clampCommit _)).groupSize_eq
  | deliver count => exact congrArg Frame.groupSize (frame_deliver w count)
  | define | append | pass | passLost | report => rfl

theorem Moves.groupSize_eq {w w' : Window} {notes : List Note} (h : w.Moves notes w')
    (steady : Note.regroups notes = 0) : w'.groupSize = w.groupSize := by
  induction h with
  | done => rfl
  | next first _ ih =>
    rw [Note.regroups_append, Nat.add_eq_zero_iff] at steady
    exact (ih steady.2).trans (first.groupSize_eq (.inr steady.1))

end Window

end ReliableMulticast
