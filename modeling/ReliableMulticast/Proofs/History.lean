import Mathlib.Data.List.Induction
import ReliableMulticast.Proofs.Intake
import ReliableMulticast.Proofs.Ledger
import ReliableMulticast.Proofs.Reading

/-!
# Histories of a window

A history is a list of operations, and what its record says is read off the answers alone: the
packets that were accepted, the messages that were handed out, the losses that were told. A repair
takes in several packets, so a history is looked at in `parts` that take in one packet each. Every
part is a sequence of moves whose notes say the same as its answer (`step_spec`), and
`history_induction` carries what moves keep over to all histories of a window that is not shut down.
-/

namespace ReliableMulticast.Window

/-! ### Parts -/

/-- The packets that a repair takes in: one for each missing member, up to the first that cannot be
computed. -/
def Op.repairs (g : Group) (decode : Decoder) (now : Timestamp) : List SeqNum → List Op
  | [] => []
  | s :: rest =>
    match decode g s with
    | .error _ => []
    | .ok payload =>
      .pushRepair ⟨g.tsi, s, none, payload⟩ .parity now :: repairs g decode now rest

/-- An operation as operations that take in one packet at most. -/
def Op.parts : Op → List Op
  | .repair g decode now => repairs g decode now g.missing
  | op => [op]

/-- A history in its parts. -/
def parts (ops : List Op) : List Op := ops.flatMap Op.parts

/-- The operation takes in one packet at most. -/
def Op.isPart : Op → Bool
  | .repair .. => false
  | _ => true

theorem Op.isPart_of_mem_repairs {g : Group} {decode : Decoder} {now : Timestamp}
    {numbers : List SeqNum} : ∀ op ∈ repairs g decode now numbers, op.isPart := by
  induction numbers with
  | nil => exact fun op hop => absurd hop List.not_mem_nil
  | cons s numbers ih =>
    intro op hop
    rw [repairs] at hop
    split at hop
    · exact absurd hop List.not_mem_nil
    · rcases List.mem_cons.1 hop with rfl | hop
      · rfl
      · exact ih op hop

theorem isPart_of_mem_parts {ops : List Op} : ∀ op ∈ parts ops, op.isPart := by
  intro op hop
  obtain ⟨whole, -, hop⟩ := List.mem_flatMap.1 hop
  cases whole with
  | repair => exact Op.isPart_of_mem_repairs op hop
  | _ =>
    obtain rfl := List.mem_singleton.1 hop
    rfl

theorem Op.parts_of_isPart {op : Op} (part : op.isPart) : op.parts = [op] := by
  cases op with
  | repair => cases part
  | _ => rfl

theorem parts_append (ops more : List Op) : parts (ops ++ more) = parts ops ++ parts more :=
  List.flatMap_append

variable {w : Window}

theorem run_append (w : Window) (ops more : List Op) :
    w.run (ops ++ more) = (w.run ops).run more :=
  List.foldl_append

theorem run_concat (w : Window) (ops : List Op) (op : Op) :
    w.run (ops ++ [op]) = ((w.run ops).step op).1 :=
  run_append w ops [op]

theorem pushRepair_of_gone (gone : w.isGone) (p : Packet) (source : RepairSource)
    (now : Timestamp) : (w.pushRepair p source now).1 = w := by
  unfold pushRepair forSession
  split
  · rfl
  · exact congrArg Prod.fst (if_pos gone)

theorem run_repairs_of_gone (gone : w.isGone) (g : Group) (decode : Decoder) (now : Timestamp)
    (numbers : List SeqNum) : w.run (Op.repairs g decode now numbers) = w := by
  induction numbers with
  | nil => rfl
  | cons s numbers ih =>
    rw [Op.repairs]
    split
    · rfl
    next payload _ =>
      exact (congrArg (run · _) (pushRepair_of_gone gone ⟨g.tsi, s, none, payload⟩ .parity now)).trans
        ih

/-- A packet is answered with a gone window only by a gone window. -/
theorem isGone_of_outcome {p : Packet} {source : RepairSource} {now : Timestamp}
    (h : (w.pushRepair p source now).2.outcome = .windowGone) : w.isGone := by
  by_contra hlive
  unfold pushRepair forSession at h
  split at h
  · cases h
  · rw [whileLive, if_neg hlive] at h
    exact outcome_acceptData_ne w p (some source) now h

theorem run_repairs (w : Window) (g : Group) (decode : Decoder) (now : Timestamp)
    (numbers : List SeqNum) :
    w.run (Op.repairs g decode now numbers) = (repairMembers g decode now numbers w).1 := by
  induction numbers generalizing w with
  | nil => rfl
  | cons s numbers ih =>
    rw [Op.repairs, repairMembers]
    cases decode g s with
    | error => rfl
    | ok payload =>
      simp only
      split
      next hgone =>
        have gone := isGone_of_outcome hgone
        have hsame := pushRepair_of_gone gone ⟨g.tsi, s, none, payload⟩ .parity now
        exact (congrArg (run · _) hsame).trans
          ((run_repairs_of_gone gone g decode now numbers).trans hsame.symm)
      · exact ih _

theorem run_parts_single (w : Window) (op : Op) : w.run op.parts = (w.step op).1 := by
  cases op with
  | repair g decode now => exact w.run_repairs g decode now g.missing
  | _ => rfl

/-- A history and its parts lead to the same window. -/
theorem run_parts (w : Window) (ops : List Op) : w.run (parts ops) = w.run ops := by
  induction ops generalizing w with
  | nil => rfl
  | cons op ops ih =>
    rw [parts, List.flatMap_cons, run_append, run_parts_single]
    exact ih _

/-! ### Records -/

/-- The packets that an operation stored, by its answer. -/
def Op.accepted : Op → Answer → List Packet
  | .push p _, .receipt r => if r.outcome.stores then [p] else []
  | .pushRepair p _ _, .receipt r => if r.outcome.stores then [p] else []
  | _, _ => []

/-- The parity packets that an operation kept, by its answer. -/
def Op.kept : Op → Answer → List Packet
  | .pushParity p _, .receipt r => if r.consumed then [p] else []
  | _, _ => []

/-- How often an answer refuses something as malformed. -/
def Answer.refusals : Answer → Nat
  | .receipt r => r.refusals
  | _ => 0

/-- The operation gives the number up: on request, because its requests are used up, or because the
sender cannot repair it any more. -/
def Op.GivesUp (w : Window) : Op → SeqNum → Prop
  | .markLost s, x => x = s ∧ w.slotIs s (·.state ≠ .lost)
  | .sweep now, x => x ∈ Ended.exhausted (w.endAllDue now).2
  | .updateStatus trail lead size shift now, x => w.PassedBySender trail lead size shift now x
  | _, _ => False

/-- The operation leaves the group size alone. -/
def Op.KeepsGroups : Op → Prop
  | .updateStatus .. => False
  | _ => True

/-- The messages that an answer hands out. -/
def Answer.messages : Answer → List Message
  | .delivery d => d.messages
  | _ => []

/-- The losses that an answer tells. -/
def Answer.losses : Answer → Nat
  | .delivery d => d.losses
  | _ => 0

/-- The count of them that it hands out. -/
def Answer.lost : Answer → Nat
  | .delivery d => d.lost.toNat
  | _ => 0

/-- This count runs over. -/
def Answer.overflows : Answer → Bool
  | .delivery d => d.overflows
  | _ => false

theorem Answer.lost_of_fits {answer : Answer} (fits : answer.overflows = false) :
    answer.lost = answer.losses := by
  cases answer with
  | delivery d => exact Delivery.toNat_lost_of_fits fits
  | _ => rfl

/-- The operations of a history with their answers. -/
def record (w : Window) : List Op → List (Op × Answer)
  | [] => []
  | op :: ops => (op, (w.step op).2) :: record (w.step op).1 ops

/-- The packets stored in the course of a history. -/
def accepted (w : Window) (ops : List Op) : List Packet :=
  (w.record ops).flatMap fun entry => entry.1.accepted entry.2

/-- The messages handed out in the course of a history. -/
def delivered (w : Window) (ops : List Op) : List Message :=
  (w.record ops).flatMap fun entry => entry.2.messages

/-- The losses told in the course of a history. They are counted in full, also where the count that
is handed out runs over. -/
def told (w : Window) (ops : List Op) : Nat := ((w.record ops).map fun entry => entry.2.losses).sum

/-- Where no count runs over, the counts that are handed out come to as many. -/
theorem sum_lost_of_fits {ops : List Op}
    (fits : ∀ entry ∈ w.record ops, entry.2.overflows = false) :
    ((w.record ops).map fun entry => entry.2.lost).sum = w.told ops :=
  congrArg List.sum (List.map_congr_left fun entry hentry => Answer.lost_of_fits (fits entry hentry))

/-- The trail that the window was given when it got its place. -/
def origin (w : Window) : List Op → SeqNum
  | [] => w.trail
  | op :: ops => if w.isDefined then w.trail else origin (w.step op).1 ops

/-- The unreported losses are never more than can be counted. Only what leaves in a step is added to
them (`unreportedLosses_step`), and nothing leaves in a read (`leaving_read`). -/
def Unsaturated (w : Window) : List Op → Prop
  | [] => True
  | op :: ops =>
    w.unreportedLosses + w.leaving (w.step op).1 ≤ maxReported ∧ Unsaturated (w.step op).1 ops

instance decidableUnsaturated : (w : Window) → (ops : List Op) → Decidable (w.Unsaturated ops)
  | _, [] => .isTrue trivial
  | w, op :: ops => @instDecidableAnd _ _ _ (decidableUnsaturated (w.step op).1 ops)

theorem record_append (w : Window) (ops more : List Op) :
    w.record (ops ++ more) = w.record ops ++ (w.run ops).record more := by
  induction ops generalizing w with
  | nil => rfl
  | cons op ops ih => exact congrArg (List.cons _) (ih _)

theorem accepted_append (w : Window) (ops more : List Op) :
    w.accepted (ops ++ more) = w.accepted ops ++ (w.run ops).accepted more := by
  rw [accepted, record_append, List.flatMap_append, accepted, accepted]

theorem delivered_append (w : Window) (ops more : List Op) :
    w.delivered (ops ++ more) = w.delivered ops ++ (w.run ops).delivered more := by
  rw [delivered, record_append, List.flatMap_append, delivered, delivered]

theorem told_append (w : Window) (ops more : List Op) :
    w.told (ops ++ more) = w.told ops + (w.run ops).told more := by
  rw [told, record_append, List.map_append, List.sum_append, told, told]

theorem unsaturated_append {ops more : List Op} :
    w.Unsaturated (ops ++ more) ↔ w.Unsaturated ops ∧ (w.run ops).Unsaturated more := by
  induction ops generalizing w with
  | nil => exact ⟨fun h => ⟨trivial, h⟩, fun h => h.2⟩
  | cons op ops ih =>
    rw [List.cons_append, Unsaturated, ih, Unsaturated, and_assoc]
    rfl

/-- Once the window has its place, later operations do not matter for where it began. -/
theorem origin_append_of_defined {ops : List Op} (defined : (w.run ops).isDefined)
    (more : List Op) : w.origin (ops ++ more) = w.origin ops := by
  induction ops generalizing w with
  | nil =>
    cases more with
    | nil => rfl
    | cons op more => exact if_pos defined
  | cons op ops ih =>
    rw [List.cons_append, origin, origin, ih defined]

/-- Somewhere in the history an operation follows those before it as `P` says. -/
def Occurs (P : List Op → Op → Prop) (ops : List Op) : Prop :=
  ∃ before op after, ops = before ++ op :: after ∧ P before op

theorem Occurs.concat {P : List Op → Op → Prop} {ops : List Op} (h : Occurs P ops) (op : Op) :
    Occurs P (ops ++ [op]) := by
  obtain ⟨before, earlier, after, rfl, hp⟩ := h
  exact ⟨before, earlier, after ++ [op], by simp, hp⟩

theorem Occurs.last {P : List Op → Op → Prop} {ops : List Op} {op : Op} (h : P ops op) :
    Occurs P (ops ++ [op]) :=
  ⟨ops, op, [], rfl, h⟩

/-! ### Steps -/

/-- The notes of a step say the same as its answer. -/
structure Tells (w : Window) (op : Op) (answer : Answer) (notes : List Note) : Prop where
  packets : Note.packets notes = op.accepted answer
  parities : Note.parities notes = op.kept answer
  refusals : Note.refusals notes = answer.refusals
  givenUp : ∀ s ∈ Note.givenUp notes, op.GivesUp w s
  regroups : op.KeepsGroups → Note.regroups notes = 0
  messages : Note.messages notes = answer.messages
  told : Note.told notes = answer.losses
  drops : Note.drops notes ≤ w.maxJump
  /-- What lets numbers leave reads nothing. -/
  apart : (∃ count, op = .read count ∧ Note.drops notes = 0) ∨
    Note.messages notes = [] ∧ Note.told notes = 0
  frees : op ≠ .free → Note.frees notes = []
  blank : w.isDefined = false → Note.messages notes = [] ∧ Note.told notes = 0

/-- What the notes of an operation are to tell if it reads nothing. -/
def tally (w : Window) (op : Op) (answer : Answer) : Note.Tally where
  packets := op.accepted answer
  parities := op.kept answer
  refusals := answer.refusals
  gives := op.GivesUp w
  steady := op.KeepsGroups
  most := w.maxJump

theorem Tells.of_took {notes : List Note} {op : Op} {answer : Answer}
    (h : Note.Took (w.tally op answer) notes) (hm : answer.messages = []) (hl : answer.losses = 0) :
    w.Tells op answer notes where
  packets := h.packets
  parities := h.parities
  refusals := h.refusals
  givenUp := h.givenUp
  regroups := h.regroups
  messages := h.messages.trans hm.symm
  told := h.told.trans hl.symm
  drops := h.drops
  apart := .inr ⟨h.messages, h.told⟩
  frees := fun _ => h.frees
  blank := fun _ => ⟨h.messages, h.told⟩

theorem Tells.of_reads {notes : List Note} {count : Nat} {d : Delivery}
    (h : Reads notes d.messages d.losses) (blank : w.isDefined = false → d = .nothing .ok) :
    w.Tells (.read count) (.delivery d) notes where
  packets := h.packets
  parities := h.parities
  refusals := h.refusals
  givenUp := by simp [h.givenUp]
  regroups := fun _ => h.regroups
  messages := h.messages
  told := h.told
  drops := by
    rw [h.drops]
    exact Nat.zero_le _
  apart := .inl ⟨count, rfl, h.drops⟩
  frees := fun _ => h.frees
  blank := by
    intro hd
    rw [h.messages, h.told, blank hd]
    exact ⟨rfl, rfl⟩

theorem tells_free (w : Window) (numbers : List SeqNum) :
    w.Tells .free .nothing (numbers.map .freed) where
  packets := by simp [Note.packets, Op.accepted]
  parities := by simp [Note.parities, Op.kept]
  refusals := by simp [Note.refusals, Answer.refusals, Function.comp_def]
  givenUp := by simp [Note.givenUp]
  regroups := fun _ => by simp [Note.regroups, Function.comp_def]
  messages := by simp [Note.messages, Answer.messages]
  told := by simp [Note.told, Answer.losses, Function.comp_def]
  drops := by simp [Note.drops, Function.comp_def]
  apart := .inr ⟨by simp [Note.messages], by simp [Note.told, Function.comp_def]⟩
  frees := fun hne => absurd rfl hne
  blank := fun _ => ⟨by simp [Note.messages], by simp [Note.told, Function.comp_def]⟩

theorem whileLive_of_live {α : Type} {gone : α} {op : Window → Window × α}
    (live : w.isGone = false) : w.whileLive gone op = op w := by
  rw [whileLive, live]
  rfl

/-- A packet of another session is refused, so it moves nothing and stores nothing. -/
theorem moves_forSession (live : w.isGone = false) (tsi : Tsi) (op : Window → Window × Receipt)
    (tally : Receipt → Note.Tally) (refused : tally (.of .unknown) = .quiet w.maxJump)
    (taken : ∃ notes, w.Moves notes (op w).1 ∧ Note.Took (tally (op w).2) notes) :
    ∃ notes, w.Moves notes (w.forSession tsi op).1 ∧
      Note.Took (tally (w.forSession tsi op).2) notes := by
  unfold forSession
  split
  · rw [refused]
    exact ⟨[], .done w, .nil _⟩
  · rw [whileLive_of_live live]
    exact taken

theorem exists_acceptNcf_eq_of (w : Window) (s : SeqNum) (sent now : Timestamp) :
    ∃ o, (w.acceptNcf s sent now).2 = .of o ∧ o ≠ .malformedApdu := by
  unfold acceptNcf
  split
  · exact ⟨_, rfl, nofun⟩
  · split
    · exact ⟨_, rfl, nofun⟩
    · split
      · exact ⟨_, rfl, nofun⟩
      · split
        · exact ⟨_, rfl, nofun⟩
        · refine ⟨_, rfl, ?_⟩
          split <;> nofun

theorem exists_acceptLoss_eq_of (w : Window) (s : SeqNum) :
    ∃ o, (w.acceptLoss s).2 = .of o ∧ o ≠ .malformedApdu := by
  unfold acceptLoss
  split
  · exact ⟨_, rfl, nofun⟩
  · split
    · exact ⟨_, rfl, nofun⟩
    · split
      · exact ⟨_, rfl, nofun⟩
      · split <;> exact ⟨_, rfl, nofun⟩

/-- A step of a window is a sequence of moves, and its answer tells their notes. -/
theorem step_spec_of_ne (h : w.Sound) (live : w.isGone = false) {op : Op} (part : op.isPart)
    (stays : op ≠ .shutdown) :
    ∃ notes, w.Moves notes (w.step op).1 ∧ w.Tells op (w.step op).2 notes := by
  cases op with
  | push p now =>
    obtain ⟨notes, hmoves, htook⟩ := moves_forSession live p.tsi (·.acceptData p none now)
      (·.dataTally p w.maxJump) rfl (moves_acceptData h p none now)
    exact ⟨notes, hmoves, .of_took htook rfl rfl⟩
  | pushRepair p source now =>
    obtain ⟨notes, hmoves, htook⟩ := moves_forSession live p.tsi (·.acceptData p (some source) now)
      (·.dataTally p w.maxJump) rfl (moves_acceptData h p (some source) now)
    exact ⟨notes, hmoves, .of_took htook rfl rfl⟩
  | pushParity p now =>
    obtain ⟨notes, hmoves, htook⟩ := moves_forSession live p.tsi (·.acceptParity p now)
      (·.parityTally p w.maxJump) rfl (moves_acceptParity h p now)
    exact ⟨notes, hmoves, .of_took htook rfl rfl⟩
  | confirmNak s sent now =>
    simp only [step, confirmNak, whileLive_of_live live]
    obtain ⟨o, hanswer, ho⟩ := w.exists_acceptNcf_eq_of s sent now
    have hrefusals : (Receipt.of o).refusals = 0 := if_neg ho
    refine ⟨[], moves_acceptNcf h s sent now, ?_⟩
    rw [show (Prod.map id Answer.receipt _).2 = .receipt (.of o) from congrArg _ hanswer]
    exact .of_took { Note.Took.nil w.maxJump with refusals := hrefusals.symm } rfl rfl
  | updateStatus trail lead size shift now =>
    simp only [step, updateStatus, whileLive_of_live live]
    obtain ⟨notes, hmoves, htook⟩ := moves_acceptStatus h trail lead size shift now
    exact ⟨notes, hmoves, .of_took htook rfl rfl⟩
  | markLost s =>
    simp only [step, markLost, whileLive_of_live live]
    obtain ⟨numbers, hmoves, hgiven⟩ := moves_acceptLoss h s
    obtain ⟨o, hanswer, ho⟩ := w.exists_acceptLoss_eq_of s
    have hrefusals : (Receipt.of o).refusals = 0 := if_neg ho
    have took := Note.Took.gaveUp hgiven w.maxJump
    refine ⟨_, hmoves, ?_⟩
    rw [show (Prod.map id Answer.receipt _).2 = .receipt (.of o) from congrArg _ hanswer]
    exact .of_took { took with refusals := took.refusals.trans hrefusals.symm } rfl rfl
  | sweep now =>
    simp only [step, sweep, whileLive_of_live live]
    obtain ⟨numbers, hmoves, hgiven⟩ := moves_sweepAll h now
    exact ⟨_, hmoves, .of_took (.gaveUp hgiven _) rfl rfl⟩
  | read count =>
    simp only [step, read, whileLive_of_live live]
    obtain ⟨notes, hmoves, hreads, -⟩ := readReady_spec h count
    exact ⟨notes, hmoves, Tells.of_reads hreads fun hd => readReady_of_undefined h hd count⟩
  | release =>
    simp only [step, release, whileLive_of_live live]
    exact ⟨[], moves_releaseUpTo _ h, .of_took (.nil _) rfl rfl⟩
  | free =>
    simp only [step, free, live]
    obtain ⟨numbers, hmoves⟩ := moves_freeDelivered h
    exact ⟨_, hmoves, w.tells_free numbers⟩
  | shutdown => exact absurd rfl stays
  | repair => cases part

theorem step_spec (h : w.Sound) (live : w.isGone = false) {op : Op} (part : op.isPart)
    (still : (w.step op).1.isGone = false) :
    ∃ notes, w.Moves notes (w.step op).1 ∧ w.Tells op (w.step op).2 notes := by
  refine step_spec_of_ne h live part ?_
  rintro rfl
  simp only [step, shutdown, live] at still
  cases still

/-- A window that is gone changes no more. -/
theorem step_of_gone (gone : w.isGone) {op : Op} (part : op.isPart) : (w.step op).1 = w := by
  have whileGone : ∀ {α : Type} {a : α} {f : Window → Window × α}, w.whileLive a f = (w, a) :=
    if_pos gone
  have forGone : ∀ {tsi f}, (w.forSession tsi f).1 = w := by
    intro tsi f
    rw [forSession, whileGone]
    split <;> rfl
  cases op with
  | push p now => exact forGone
  | pushRepair p source now => exact forGone
  | pushParity p now => exact forGone
  | free => simp only [step, free, if_pos gone]
  | shutdown => simp only [step, shutdown, if_pos gone]
  | repair => cases part
  | _ =>
    simp only [step, confirmNak, updateStatus, markLost, sweep, read, release, whileGone]
    rfl

/-- What is gone stays gone. -/
theorem isGone_step (gone : w.isGone) {op : Op} (part : op.isPart) : (w.step op).1.isGone :=
  (congrArg isGone (step_of_gone gone part)).trans gone

theorem isGone_run (gone : w.isGone) {ops : List Op} (hparts : ∀ op ∈ ops, op.isPart) :
    (w.run ops).isGone := by
  induction ops generalizing w with
  | nil => exact gone
  | cons op ops ih =>
    exact ih (isGone_step gone (hparts op (List.mem_cons_self ..)))
      fun x hx => hparts x (List.mem_cons_of_mem op hx)

/-- A window that is live after a history was live in its course. -/
theorem isGone_run_of_append {ops more : List Op} (live : (w.run (ops ++ more)).isGone = false) :
    (w.run ops).isGone = false := by
  by_contra hgone
  rw [run_append, ← run_parts _ more,
    isGone_run (by simpa using hgone) isPart_of_mem_parts] at live
  cases live

/-- What holds of the empty history and is kept by every step whose notes tell its answer holds of
all histories that leave the window live. -/
theorem history_induction {motive : List Op → Prop} (h : w.Sound) (nil : motive [])
    (concat : ∀ ops op notes, (w.run ops).Sound → (w.run ops).Moves notes (w.run (ops ++ [op])) →
      (w.run ops).Tells op ((w.run ops).step op).2 notes → motive ops → motive (ops ++ [op]))
    {ops : List Op} (parts : ∀ op ∈ ops, op.isPart) (live : (w.run ops).isGone = false) :
    (w.run ops).Sound ∧ motive ops := by
  induction ops using List.reverseRecOn with
  | nil => exact ⟨h, nil⟩
  | append_singleton ops op ih =>
    have part := parts op (List.mem_append_right ops (List.mem_singleton_self op))
    have before : (w.run ops).isGone = false := by
      by_contra hgone
      rw [run_concat, isGone_step (by simpa using hgone) part] at live
      cases live
    obtain ⟨hsound, hmotive⟩ := ih (fun x hx => parts x (List.mem_append_left _ hx)) before
    rw [run_concat] at live
    obtain ⟨notes, hmoves, htells⟩ := step_spec hsound before part live
    rw [← run_concat] at hmoves
    exact ⟨hmoves.sound hsound, concat ops op notes hsound hmoves htells hmotive⟩

/-- A window that is not shut down is sound after any history, with the configuration it was made
with. -/
theorem sound_run (h : w.Sound) {ops : List Op} (live : (w.run ops).isGone = false) :
    (w.run ops).Sound ∧ w.Keeps (w.run ops) := by
  rw [← run_parts] at live ⊢
  refine history_induction (motive := fun ops => w.Keeps (w.run ops)) h ⟨rfl, rfl, rfl, id⟩ ?_
    isPart_of_mem_parts live
  intro ops op notes _ hmoves _ hkeeps
  exact hkeeps.trans hmoves.keeps

/-! ### Saturation -/

/-- Where nothing is read, the numbers that leave show in the place of the window. -/
theorem Tells.drops_eq_leaving {w' : Window} {op : Op} {answer : Answer} {notes : List Note}
    (ht : w.Tells op answer notes) (hm : w.Moves notes w') (h : w.Sound)
    (unread : Note.messages notes = [] ∧ Note.told notes = 0) :
    Note.drops notes = w.leaving w' := by
  have hpasses := Note.passes_le_told notes
  have hdrops := ht.drops
  unfold maxJump at hdrops
  split at hdrops
  next defined => exact hm.drops_eq_leaving h defined ⟨unread.1, by omega⟩ hdrops
  next undefined =>
    rw [leaving, if_neg undefined]
    omega

/-- The numbers that leave in a step can all be counted if the history is not saturated. -/
theorem Tells.drops_le {w' : Window} {op : Op} {answer : Answer} {notes : List Note}
    (ht : w.Tells op answer notes) (hm : w.Moves notes w') (h : w.Sound)
    (unsaturated : w.unreportedLosses + w.leaving w' ≤ maxReported) :
    w.unreportedLosses + Note.drops notes ≤ maxReported := by
  rcases ht.apart with ⟨_, _, hzero⟩ | unread
  · omega
  · rwa [ht.drops_eq_leaving hm h unread]

/-- Except by a read, unreported losses only grow, by the numbers that leave, as far as they can be
counted. -/
theorem unreportedLosses_step (h : w.Sound) (live : w.isGone = false) {op : Op} (part : op.isPart)
    (still : (w.step op).1.isGone = false) (unread : ∀ count, op ≠ .read count)
    (hmax : w.unreportedLosses ≤ maxReported) :
    (w.step op).1.unreportedLosses =
      min (w.unreportedLosses + w.leaving (w.step op).1) maxReported := by
  obtain ⟨notes, hmoves, htells⟩ := step_spec h live part still
  have hquiet := htells.apart.resolve_left fun ⟨count, hread, _⟩ => unread count hread
  rw [hmoves.unreported_eq_min h hquiet.2 hmax, htells.drops_eq_leaving hmoves h hquiet]

theorem step_read (live : w.isGone = false) (count : Nat) :
    w.step (.read count) = ((w.readReady count).1, .delivery (w.readReady count).2) := by
  simp only [step, read, whileLive_of_live live]
  rfl

theorem leaving_read (h : w.Sound) (live : w.isGone = false) (count : Nat) :
    w.leaving (w.step (.read count)).1 = 0 := by
  rw [leaving, step_read live, trail_readReady, SeqNum.steps, if_neg h.not_before_trail, ite_self]

/-- The unreported losses of a window are never more than can be counted, as those that are too many
are forgotten. -/
theorem unreportedLosses_le (tsi : Tsi) (config : ValidConfig) {ops : List Op}
    (live : ((create tsi config).run ops).isGone = false) :
    ((create tsi config).run ops).unreportedLosses ≤ maxReported := by
  rw [← run_parts] at live ⊢
  refine (history_induction (motive := fun ops => ((create tsi config).run ops).unreportedLosses ≤
    maxReported) (sound_create tsi config) (Nat.zero_le _) ?_ isPart_of_mem_parts live).2
  exact fun ops op notes hsound hmoves _ hmax => hmoves.unreported_le hsound hmax

/-! ### A small window -/

def smallTsi : Tsi := ⟨#v[1, 2, 3, 4, 5, 6], 7⟩

/-- Four slots and groups of two. -/
def smallConfig : ValidConfig :=
  ⟨{ maxTpdu := 16, groupSize := 2, capacity := 4, minNaks := 1, maxNaks := 3, maxNcfRetries := 2,
     backOff := ⟨10⟩, ncfWait := ⟨10⟩, dataWait := ⟨10⟩ }, by decide⟩

/-- A packet of the small window's session with one byte of data. -/
def smallPush (s : SeqNum) (fragment : Option Fragment) (byte : UInt8) : Op :=
  .push ⟨smallTsi, s, fragment, ⟨#[byte]⟩⟩ 0

/-- Far jumps ahead, over as many numbers as can be counted, with a loss close to the end. -/
def farJumps : List Op :=
  [smallPush 0 none 1, smallPush 2147483647 none 2, smallPush 4294967291 none 3, smallPush 2 none 4,
    .markLost 4294967295]

theorem live_farJumps : ((create smallTsi smallConfig).run farJumps).isGone = false := by
  decide +kernel

end ReliableMulticast.Window
