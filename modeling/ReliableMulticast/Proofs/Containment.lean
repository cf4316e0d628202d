import ReliableMulticast.Proofs.Extents
import ReliableMulticast.Proofs.Shifting

/-!
# Loss is contained in its APDU

A window that takes in a stream gives up no more than it has to. `Harm` collects what happens to single
numbers: they are given up, they leave undelivered, or the window begins there. A slot that is lost was
given up itself, or its APDU came to harm elsewhere. For the slots ahead of the reader this holds
because an APDU that is looked at from its middle was entered there (`Contained.lead`) or had a lost
slot in front of the reader, and both go back to harm done to the APDU (`Contained.breaks`).
-/

namespace ReliableMulticast

/-- What happens to single numbers of a window. -/
structure Harm where
  /-- The number was given up on its own account. -/
  givenUp : SeqNum → Prop
  /-- The number left the window undelivered. -/
  left : SeqNum → Prop
  /-- The window began at the number. -/
  began : SeqNum → Prop

namespace Harm

/-- A number of the APDU was given up, or the window began inside it. -/
def Strikes (harm : Harm) (m : Message) : Prop :=
  (∃ y, m.Spans y ∧ harm.givenUp y) ∨ ∃ y, m.Inside y ∧ harm.began y

/-- The APDU came to harm, or one of its numbers before `x` left the window. -/
def Breaks (harm : Harm) (m : Message) (x : SeqNum) : Prop :=
  harm.Strikes m ∨ ∃ y, m.first.gap y < m.first.gap x ∧ harm.left y

/-- What the notes of moves from `w` to `w'` tell of single numbers is among the harm. -/
structure Covers (harm : Harm) (w w' : Window) (notes : List Note) : Prop where
  givenUp : ∀ s ∈ Note.givenUp notes, harm.givenUp s
  left : ∀ k, k < Note.drops notes → harm.left (w.commitTrail + k)
  /-- No number leaves while something is read. -/
  apart : Note.drops notes = 0 ∨ Note.messages notes = [] ∧ Note.passes notes = 0
  blank : w.isDefined = false → Note.advance notes = 0
  began : w.isDefined = false → w'.isDefined → harm.began w'.commitTrail

structure Le (harm harm' : Harm) : Prop where
  givenUp : ∀ {x}, harm.givenUp x → harm'.givenUp x
  left : ∀ {x}, harm.left x → harm'.left x
  began : ∀ {x}, harm.began x → harm'.began x

variable {harm harm' : Harm} {m : Message} {x y : SeqNum}

theorem Strikes.mono (h : harm.Strikes m) (le : harm.Le harm') : harm'.Strikes m := by
  rcases h with ⟨y, hy, hgiven⟩ | ⟨y, hy, hbegan⟩
  · exact .inl ⟨y, hy, le.givenUp hgiven⟩
  · exact .inr ⟨y, hy, le.began hbegan⟩

theorem Breaks.mono (h : harm.Breaks m x) (le : harm.Le harm')
    (hxy : m.first.gap x ≤ m.first.gap y) : harm'.Breaks m y := by
  rcases h with hstrikes | ⟨z, hz, hleft⟩
  · exact .inl (hstrikes.mono le)
  · exact .inr ⟨z, Nat.lt_of_lt_of_le hz hxy, le.left hleft⟩

theorem Le.refl (harm : Harm) : harm.Le harm := ⟨id, id, id⟩

end Harm

/-- The operation repairs nothing and takes in no data but packets of the stream. -/
def Stream.Supplies (stream : Stream) (op : Window.Op) : Prop :=
  op.isPart ∧ ∀ p, op.packet? = some p → p ∈ stream.packets

namespace Window

variable {w w' w'' : Window} {notes more : List Note} {stream : Stream} {harm harm' : Harm}
  {m : Message} {x : SeqNum} {old new : Slot}

/-! ### Contained losses -/

/-- The APDU came to harm, or the reader stands inside it. -/
def Exposes (w : Window) (harm : Harm) (m : Message) : Prop :=
  harm.Strikes m ∨ m.Inside w.commitTrail

/-- Every loss goes back to harm done to its own APDU. -/
structure Contained (w : Window) (stream : Stream) (harm : Harm) : Prop where
  /-- The reader stands inside an APDU only if that is broken there. -/
  trail : w.isDefined → ∀ m ∈ stream.messages, m.Inside w.commitTrail → harm.Breaks m w.commitTrail
  lead : w.isDefined → ∀ m ∈ stream.messages, m.Inside w.commitLead → w.Exposes harm m
  ahead : ∀ {x slot}, w.slots.get? x = some slot → slot.state = .lost → w.Ahead x →
    ∀ m ∈ stream.messages, m.Spans x → w.Exposes harm m
  lost : ∀ {x slot}, w.slots.get? x = some slot → slot.state = .lost →
    harm.givenUp x ∨ ∃ m ∈ stream.messages, m.Spans x ∧ harm.Breaks m x
  blank : w.isDefined = false → w.slots.size = 0

theorem contained_of_undefined (undefined : w.isDefined = false) (empty : w.slots.size = 0)
    (stream : Stream) (harm : Harm) : w.Contained stream harm where
  trail := fun defined => by cases undefined.symm.trans defined
  lead := fun defined => by cases undefined.symm.trans defined
  ahead := fun found => by cases (get?_of_empty empty _).symm.trans found
  lost := fun found => by cases (get?_of_empty empty _).symm.trans found
  blank := fun _ => empty

/-- Nothing is lost in an emptied window. -/
theorem Contained.of_empty (h : w.Contained stream harm) (empty : w'.slots.size = 0)
    (placed : w'.isDefined = w.isDefined) (trail : w'.commitTrail = w.commitTrail)
    (lead : w'.commitLead = w.commitLead) : w'.Contained stream harm where
  trail := by
    rw [placed, trail]
    exact h.trail
  lead := by
    rw [placed, lead]
    unfold Exposes
    rw [trail]
    exact h.lead
  ahead := fun found => by cases (get?_of_empty empty _).symm.trans found
  lost := fun found => by cases (get?_of_empty empty _).symm.trans found
  blank := fun _ => empty

theorem Contained.mono (h : w.Contained stream harm) (le : w.isDefined → harm.Le harm') :
    w.Contained stream harm' := by
  cases hd : w.isDefined with
  | false => exact contained_of_undefined hd (h.blank hd) stream harm'
  | true =>
    have le := le hd
    have exposes : ∀ {m}, w.Exposes harm m → w.Exposes harm' m := Or.imp_left (·.mono le)
    refine ⟨fun hd m hm hin => (h.trail hd m hm hin).mono le (Nat.le_refl _),
      fun hd m hm hin => exposes (h.lead hd m hm hin),
      fun found hlost hahead m hm hx => exposes (h.ahead found hlost hahead m hm hx), ?_, h.blank⟩
    intro x slot found hlost
    rcases h.lost found hlost with hgiven | ⟨m, hm, hx, hbreaks⟩
    · exact .inl (le.givenUp hgiven)
    · exact .inr ⟨m, hm, hx, hbreaks.mono le (Nat.le_refl _)⟩

/-- Seen from the start of an APDU that spans `x`, what lies not too far ahead of `x` lies as much
farther ahead. -/
theorem gap_of_spans {y : SeqNum} (short : m.packets ≤ 1073741824) (hx : m.Spans x)
    (near : x.gap y ≤ 3221225472) : m.first.gap y = m.first.gap x + x.gap y := by
  unfold Message.Spans at hx
  exact SeqNum.gap_trans (by omega)

/-- An APDU stays exposed while the reader goes forward to a number of it. -/
theorem Exposes.shift {count : Nat} (h : w.Exposes harm m) (short : m.packets ≤ 1073741824)
    (near : count ≤ 2147483648) (trail : w'.commitTrail = w.commitTrail + count)
    (ahead : w'.commitTrail.gap x ≤ 1073741824) (hx : m.Spans x) : w'.Exposes harm m := by
  refine h.imp_right fun ⟨hpos, hspans⟩ => ?_
  have hcount : w.commitTrail.gap w'.commitTrail = count := by
    rw [trail, SeqNum.gap_add _ (by omega)]
  have hfar : w.commitTrail.gap x = count + w'.commitTrail.gap x := by
    rw [SeqNum.gap_trans (b := w'.commitTrail) (by omega), hcount]
  have hthere := gap_of_spans (y := w'.commitTrail) short hspans (by omega)
  have hbeyond := gap_of_spans (y := x) short hspans (by omega)
  unfold Message.Inside Message.Spans at *
  omega

/-- A lost slot of an exposed APDU lies behind the harm done to it. -/
theorem Contained.breaks (h : w.Contained stream harm) (hs : w.Sound) (defined : w.isDefined)
    (short : m.packets ≤ 1073741824) (hm : m ∈ stream.messages) (exposed : w.Exposes harm m)
    (ahead : w.Ahead x) : harm.Breaks m x := by
  rcases exposed with hstrikes | hinside
  · exact .inl hstrikes
  · have hnext := hs.gap_next_le
    unfold Ahead at ahead
    have hfar := gap_of_spans (y := x) short hinside.2 (by omega)
    exact (h.trail defined m hm hinside).mono (.refl harm) (by omega)

/-! ### Moves -/

/-- A slot is lost because it was, because its number was given up, or with an APDU that came to harm
before. -/
theorem Move.lost_cases (hm : w.Move notes w') (hs : w.Sound) (fed : w.Fed stream)
    (fits : stream.Fits w.config) (h : w.Contained stream harm)
    (givenUp : ∀ s ∈ Note.givenUp notes, harm.givenUp s) (found : w'.slots.get? x = some new)
    (lost : new.state = .lost) :
    (∃ old, w.slots.get? x = some old ∧ old.state = .lost) ∨ harm.givenUp x ∨
      w.Ahead x ∧ ∃ m ∈ stream.messages, m.Spans x ∧ w.Exposes harm m := by
  have front : ∀ {slot : Slot}, w.slots.get? w.commitLead = some slot → w.Ahead w.commitLead :=
    fun hslot => hs.ahead_iff.2 ⟨hs.commitTrail_le, place_lt_of_get? hslot⟩
  rcases hm.slot_cases hs found with harises | ⟨old, hold, hturns⟩
  · cases harises <;> cases lost
  · cases hturns with
    | same => exact .inl ⟨_, hold, lost⟩
    | fill | commit => cases lost
    | keep => cases lost
    | wait pending waits =>
      have := waits.pending pending
      rw [lost] at this
      cases this
    | lose s ahead along =>
      have hgiven := givenUp s (List.mem_singleton_self s)
      obtain ⟨hahead, rfl | ⟨m, hm, hspans, hx⟩⟩ := fed.spans_of_takesAlong hs fits ahead along
      · exact .inr (.inl hgiven)
      · exact .inr (.inr ⟨hahead, m, hm, hx, .inl (.inl ⟨s, hspans, hgiven⟩)⟩)
    | spoil hslot held hf here broken along =>
      obtain ⟨hwell, hbroken⟩ := fed.scanApdu_spec hs fits hslot held hf here
      obtain ⟨m, hm, hfront, y, other, hy, hahead, hother, hlost⟩ :=
        hbroken (broken.resolve_right hwell)
      have hexposed := h.ahead hother hlost hahead m hm hy
      obtain ⟨hx, rfl | ⟨m', hm', hfront', hspans⟩⟩ :=
        fed.spans_of_takesAlong hs fits (front hslot) along
      · exact .inr (.inr ⟨hx, m, hm, hfront, hexposed⟩)
      · obtain rfl := Stream.eq_of_spans hm hm' hfront hfront'
        exact .inr (.inr ⟨hx, m, hm, hspans, hexposed⟩)
    | orphan hx held hf elsewhere =>
      subst hx
      obtain ⟨m, hm, hfirst, hspans⟩ := fed.exists_message fits hold hf
      refine .inr (.inr ⟨front hold, m, hm, hspans, ?_⟩)
      refine h.lead (hs.isDefined_of_get? hold) m hm ⟨Nat.pos_of_ne_zero fun hzero => ?_, hspans⟩
      exact elsewhere (hfirst.symm.trans (SeqNum.gap_eq_zero_iff.1 hzero))
    | retain => exact .inl ⟨_, hold, Slot.state_of_state_retain lost nofun⟩
    | free => exact .inl ⟨_, hold, old.state_dropPayload.symm.trans lost⟩

theorem Shifts.trail_breaks (h : w.Contained stream harm) (shifts : w.Shifts w' notes) (hs : w.Sound)
    (fed : w.Fed stream) (fits : stream.Fits w.config) (defined : w.isDefined)
    (covers : harm.Covers w w' notes) (hm : m ∈ stream.messages) (hin : m.Inside w'.commitTrail) :
    harm.Breaks m w'.commitTrail := by
  cases shifts with
  | still trail | pass _ _ _ trail =>
    rw [trail] at hin ⊢
    exact h.trail defined m hm hin
  | passLost unread found lost trail =>
    rw [trail] at hin ⊢
    have hstep := SeqNum.gap_add_one hin.1
    have hspans : m.Spans w.commitTrail := by
      have := hin.2
      unfold Message.Spans at *
      omega
    have hahead : w.Ahead w.commitTrail :=
      hs.ahead_iff.2 ⟨Nat.le_refl _, place_lt_of_get? found⟩
    have hexposed := h.ahead found lost hahead m hm hspans
    exact (h.breaks hs defined (fits.packets_le hm) hm hexposed hahead).mono (.refl harm) (by omega)
  | deliver m' held first inside trail =>
    have hends := Stream.not_inside_end fits hm (fed.mem_messages held)
    rw [trail, ← first] at hin
    exact absurd hin hends
  | drop count pos near trail =>
    have hprev : w'.commitTrail = (w.commitTrail + (count - 1)).next := by
      rw [trail, SeqNum.add_next, Nat.sub_add_cancel pos]
    rw [hprev] at hin ⊢
    have hstep := SeqNum.gap_add_one hin.1
    exact .inr ⟨_, by omega, covers.left (count - 1) (by simp [Note.drops]; omega)⟩

theorem Shifts.lead_exposed (h : w.Contained stream harm) (shifts : w.Shifts w' notes) (hs : w.Sound)
    (hs' : w'.Sound) (fed : w.Fed stream) (fits : stream.Fits w.config) (defined : w.isDefined)
    (hm : m ∈ stream.messages) (hin : m.Inside w'.commitLead) : w'.Exposes harm m := by
  have short := fits.packets_le hm
  obtain ⟨count, near, hadvance⟩ := shifts.exists_advance hs
  have hnear : w'.commitTrail.gap w'.commitLead ≤ 1073741824 := by
    have hcl := hs'.commitLead_le
    have hsize := hs'.size_le
    rw [hs'.gap_readable]
    omega
  have stays : w'.commitLead = w.commitLead → w'.Exposes harm m := by
    intro lead
    rw [lead] at hin hnear
    exact (h.lead defined m hm hin).shift short near hadvance hnear hin.2
  cases shifts with
  | still _ lead | passLost _ _ _ _ lead | deliver _ _ _ _ _ lead => exact stays lead
  | drop _ _ _ _ lead =>
    rw [lead] at hin
    exact .inr hin
  | pass n inside settled trail lead =>
    have hexposed : w.Exposes harm m := by
      have hlength := SlotRing.length_slice (r := w.slots) inside
      rcases fed.inside_of_settled fits settled (fun k slot hk => by
          obtain ⟨-, found, -, hdelivered⟩ := hs.of_mem_front inside hk
          exact ⟨found, hdelivered⟩) hm (by rwa [hlength, ← lead]) with
        hfront | ⟨k, slot, hk, hlost, hspans⟩
      · exact h.lead defined m hm hfront
      · obtain ⟨-, found, hahead, -⟩ := hs.of_mem_front inside hk
        exact h.ahead found hlost hahead m hm hspans
    rw [Exposes, trail]
    exact hexposed

/-- A move keeps losses contained. -/
theorem Move.contained (hm : w.Move notes w') (hs : w.Sound) (fed : w.Fed stream)
    (fits : stream.Fits w.config) (h : w.Contained stream harm) (covers : harm.Covers w w' notes) :
    w'.Contained stream harm := by
  have hs' := hm.sound hs
  have hblank := fun hu => (hs'.blank hu).1
  cases hd : w.isDefined with
  | false =>
    cases hd' : w'.isDefined with
    | false => exact contained_of_undefined hd' (hblank hd') stream harm
    | true =>
      have hbegan := covers.began hd hd'
      obtain ⟨trail, rfl⟩ := hm.exists_define hd hd'
      have empty : (w.define trail).slots.size = 0 := rfl
      refine ⟨fun _ m _ hin => .inl (.inr ⟨_, hin, hbegan⟩), fun _ m _ hin => .inr hin,
        fun found => ?_, fun found => ?_, hblank⟩ <;>
        cases (get?_of_empty empty _).symm.trans found
  | true =>
    have shifts := hm.shifts hs hd
    obtain ⟨count, near, hadvance⟩ := shifts.exists_advance hs
    refine ⟨fun _ m => shifts.trail_breaks h hs fed fits hd covers,
      fun _ m => shifts.lead_exposed h hs hs' fed fits hd, ?_, ?_, hblank⟩
    · intro x new found lost ahead m hm' hx
      have short := fits.packets_le hm'
      have hnear : w'.commitTrail.gap x < 1073741824 := Nat.lt_of_lt_of_le ahead hs'.gap_next_le
      have stays : w.Exposes harm m → w'.Exposes harm m :=
        fun hexposed => hexposed.shift short near hadvance (Nat.le_of_lt hnear) hx
      rcases hm.lost_cases hs fed fits h covers.givenUp found lost with
        ⟨old, hold, hlost⟩ | hgiven | ⟨-, m', hm'', hx', hexposed⟩
      · have hcount : w.commitTrail.gap w'.commitTrail = count := by
          rw [hadvance, SeqNum.gap_add _ (by omega)]
        have hfar : w.commitTrail.gap x < 3221225472 := by
          rw [SeqNum.gap_trans (b := w'.commitTrail) (by omega), hcount]
          omega
        exact stays (h.ahead hold hlost (hs.ahead_of_near hold hfar) m hm' hx)
      · exact .inl (.inl ⟨x, hx, hgiven⟩)
      · obtain rfl := Stream.eq_of_spans hm' hm'' hx hx'
        exact stays hexposed
    · intro x new found lost
      rcases hm.lost_cases hs fed fits h covers.givenUp found lost with
        ⟨old, hold, hlost⟩ | hgiven | ⟨hahead, m, hm', hx, hexposed⟩
      · exact h.lost hold hlost
      · exact .inl hgiven
      · exact .inr ⟨m, hm', hx, h.breaks hs hd (fits.packets_le hm') hm' hexposed hahead⟩

/-! ### Sequences of moves -/

/-- What covers moves covers the first of them and those after it. -/
theorem covers_split (first : w.Move notes w') (later : w'.Moves more w'') (hs : w.Sound)
    (h : harm.Covers w w'' (notes ++ more)) : harm.Covers w w' notes ∧ harm.Covers w' w'' more := by
  obtain ⟨hgiven, hleft, hapart, hblank, hbegan⟩ := h
  simp only [Note.givenUp_append, List.forall_mem_append, Note.drops_append, Note.messages_append,
    Note.passes_append, List.append_eq_nil_iff, Note.advance_append, Nat.add_eq_zero_iff]
    at hgiven hleft hapart hblank hbegan
  have undefined : w'.isDefined = false → w.isDefined = false := by
    intro hd'
    by_contra hd
    cases hd'.symm.trans (first.keeps.isDefined (by simpa using hd))
  have advanced : Note.drops more ≠ 0 → w'.commitTrail = w.commitTrail + Note.drops notes := by
    intro hmore
    have hdefined : w.isDefined := by
      by_contra hd
      have hzero := (hblank (by simpa using hd)).2
      unfold Note.advance at hzero
      omega
    obtain ⟨⟨hmessages, -⟩, hpasses, -⟩ := hapart.resolve_left fun hzero => hmore hzero.2
    rw [first.commitTrail_eq hs hdefined, Note.advance, hmessages, hpasses]
    simp
  refine ⟨⟨hgiven.1, fun k hk => hleft k (by omega), hapart.imp (·.1) fun h => ⟨h.1.1, h.2.1⟩,
    fun hd => (hblank hd).1, fun hd hd' => ?_⟩, ⟨hgiven.2, fun k hk => ?_,
    hapart.imp (·.2) fun h => ⟨h.1.2, h.2.2⟩, fun hd' => (hblank (undefined hd')).2,
    fun hd' => hbegan (undefined hd')⟩⟩
  · have htrail := later.commitTrail_eq (first.sound hs) hd'
    rw [(hblank hd).2, SeqNum.add_zero] at htrail
    exact htrail ▸ hbegan hd (later.keeps.isDefined hd')
  · rw [advanced (by omega), SeqNum.add_add]
    exact hleft _ (by omega)

/-- Moves keep losses contained, and of packets of the stream none is counted malformed. -/
theorem Moves.contained (hm : w.Moves notes w') (hs : w.Sound) (fits : stream.Fits w.config)
    (stored : ∀ p ∈ Note.packets notes, p ∈ stream.packets) (fed : w.Fed stream)
    (h : w.Contained stream harm) (covers : harm.Covers w w' notes) :
    w'.Fed stream ∧ w'.Contained stream harm ∧
      w'.counters.malformed = w.counters.malformed + Note.refusals notes := by
  induction hm with
  | done => exact ⟨fed, h, rfl⟩
  | next first later ih =>
    rw [Note.packets_append, List.forall_mem_append] at stored
    obtain ⟨here, there⟩ := covers_split first later hs covers
    obtain ⟨hfed, hcontained, hmalformed⟩ := ih (first.sound hs) (first.keeps.config ▸ fits) stored.2
      (first.fed hs fed stored.1) (first.contained hs fed fits h here) there
    refine ⟨hfed, hcontained, ?_⟩
    rw [hmalformed, first.malformed_eq hs fed fits, Note.refusals_append, Nat.add_assoc]

/-! ### Histories -/

/-- In the course of the history the number was given up itself: on request, because its requests were
used up, or because the sender could not repair it any more. -/
def GaveUp (w : Window) (ops : List Op) (x : SeqNum) : Prop :=
  Occurs (fun before op => op.GivesUp (w.run before) x) ops

/-- The window gives up its place for the number, which was not read yet, if it turns into `w'`. -/
def Leaves (w w' : Window) (x : SeqNum) : Prop := w.isDefined ∧ x ∈ w.commitTrail.upTo w'.trail

/-- In the course of the history the number left the window unread. -/
def LeftUnread (w : Window) (ops : List Op) (x : SeqNum) : Prop :=
  Occurs (fun before op => (w.run before).Leaves (w.run (before ++ [op])) x) ops

/-- The harm done in the course of a history. -/
def harmOf (w : Window) (ops : List Op) : Harm where
  givenUp := w.GaveUp ops
  left := w.LeftUnread ops
  began := (· = w.origin ops)

theorem harmOf_concat {ops : List Op} (defined : (w.run ops).isDefined) (op : Op) :
    (w.harmOf ops).Le (w.harmOf (ops ++ [op])) where
  givenUp := (·.concat op)
  left := (·.concat op)
  began := fun hx => hx.trans (origin_append_of_defined defined [op]).symm

/-- The harm done in the course of a history covers the moves of its last step. -/
theorem covers_concat (tsi : Tsi) (config : ValidConfig) {ops : List Op} {op : Op}
    (hparts : ∀ op ∈ ops, op.isPart) (live : ((create tsi config).run ops).isGone = false)
    (hs : ((create tsi config).run ops).Sound)
    (hmoves : ((create tsi config).run ops).Moves notes ((create tsi config).run (ops ++ [op])))
    (htells : ((create tsi config).run ops).Tells op (((create tsi config).run ops).step op).2 notes) :
    ((create tsi config).harmOf (ops ++ [op])).Covers ((create tsi config).run ops)
      ((create tsi config).run (ops ++ [op])) notes := by
  have horigin := exists_origin tsi config hparts live
  generalize create tsi config = w at *
  have hpasses := Note.passes_le_told notes
  have hblank : (w.run ops).isDefined = false → Note.advance notes = 0 := by
    intro undefined
    obtain ⟨hmessages, htold⟩ := htells.blank undefined
    have hdrops : Note.drops notes ≤ 0 := by simpa [maxJump, undefined] using htells.drops
    rw [Note.advance, hmessages]
    simp
    omega
  refine ⟨fun s hgiven => Occurs.last (htells.givenUp s hgiven), fun k hk => Occurs.last ?_, ?_,
    hblank, fun undefined defined => ?_⟩
  · have hdefined : (w.run ops).isDefined := by
      by_contra hd
      have := hblank (by simpa using hd)
      unfold Note.advance at this
      omega
    rcases htells.apart with ⟨_, _, hzero⟩ | unread
    · omega
    · have hleaving := htells.drops_eq_leaving hmoves hs unread
      rw [leaving, if_pos hdefined] at hleaving
      exact ⟨hdefined, SeqNum.mem_run.2 ⟨k, by omega, rfl⟩⟩
  · rcases htells.apart with ⟨-, -, hzero⟩ | ⟨hm, ht⟩
    · exact .inl hzero
    · exact .inr ⟨hm, by omega⟩
  · rw [undefined, if_neg Bool.false_ne_true] at horigin
    obtain ⟨hfresh, hplace⟩ := horigin
    obtain ⟨hmessages, htold⟩ := htells.blank undefined
    have htrail := hmoves.commitTrail_eq_trail hs ⟨hmessages, by omega⟩ (.inl hfresh.commitTrail)
    change _ = w.origin (ops ++ [op])
    rw [hplace, origin, undefined, htrail, run_concat]
    rfl

/-! ### Refusals -/

/-- A window that is gone refuses nothing as malformed. -/
theorem refusals_of_gone (gone : w.isGone) {op : Op} (part : op.isPart) :
    (w.step op).2.refusals = 0 := by
  have whileGone : ∀ {α : Type} {a : α} {f : Window → Window × α}, w.whileLive a f = (w, a) :=
    if_pos gone
  have forGone : ∀ {tsi f}, (w.forSession tsi f).2.refusals = 0 := by
    intro tsi f
    rw [forSession, whileGone]
    split <;> rfl
  cases op with
  | push | pushRepair | pushParity => exact forGone
  | repair => cases part
  | free | shutdown => rfl
  | _ =>
    simp only [step, confirmNak, updateStatus, markLost, sweep, read, release, whileGone]
    rfl

/-- A packet of the stream is not refused as malformed. -/
theorem refusals_of_packet (hs : w.isGone = false → w.Sound) (fed : w.Fed stream)
    (fits : stream.Fits w.config) {op : Op} {p : Packet} (hop : op.packet? = some p)
    (hp : p ∈ stream.packets) : (w.step op).2.refusals = 0 := by
  cases hgone : w.isGone with
  | true =>
    refine refusals_of_gone hgone ?_
    cases op <;> first | rfl | cases hop
  | false =>
    have wellFormed := isMalformed_eq_false fits (hs hgone) fed.marked hp
    have taken : ∀ source now, (w.acceptData p source now).2.refusals = 0 := by
      intro source now
      have htakes := takes_acceptData wellFormed source now
      generalize w.acceptData p source now = answer at htakes
      cases htakes <;> rfl
    have session : ∀ source now, (w.forSession p.tsi (·.acceptData p source now)).2.refusals = 0 := by
      intro source now
      rw [forSession, whileLive_of_live hgone]
      split
      · rfl
      · exact taken source now
    cases op with
    | push q now =>
      obtain rfl := Option.some.inj hop
      exact session none now
    | pushRepair q source now =>
      obtain rfl := Option.some.inj hop
      exact session (some source) now
    | _ => cases hop

/-! ### Containment -/

/-- What a history that takes in a stream keeps. -/
structure Supplied (w : Window) (stream : Stream) (ops : List Op) : Prop where
  fed : (w.run ops).Fed stream
  contained : (w.run ops).Contained stream (w.harmOf ops)
  config : (w.run ops).config = w.config
  malformed : (w.run ops).counters.malformed = ((w.record ops).map (·.2.refusals)).sum
  accepts : ∀ entry ∈ w.record ops, entry.1.packet?.isSome → entry.2.refusals = 0

theorem supplied_nil (tsi : Tsi) (config : ValidConfig) (stream : Stream) :
    (create tsi config).Supplied stream [] where
  fed := fed_of_empty rfl stream
  contained := contained_of_undefined rfl rfl stream _
  config := rfl
  malformed := rfl
  accepts := fun _ hentry => absurd hentry List.not_mem_nil

theorem Supplied.concat {ops : List Op} {op : Op} (h : w.Supplied stream ops)
    (accepts : ∀ p, op.packet? = some p → ((w.run ops).step op).2.refusals = 0)
    (fed : (w.run (ops ++ [op])).Fed stream)
    (contained : (w.run (ops ++ [op])).Contained stream (w.harmOf (ops ++ [op])))
    (config : (w.run (ops ++ [op])).config = (w.run ops).config)
    (malformed : (w.run (ops ++ [op])).counters.malformed =
      (w.run ops).counters.malformed + ((w.run ops).step op).2.refusals) :
    w.Supplied stream (ops ++ [op]) := by
  have hrecord : w.record (ops ++ [op]) = w.record ops ++ [(op, ((w.run ops).step op).2)] :=
    record_append ..
  refine ⟨fed, contained, config.trans h.config, ?_, ?_⟩
  · rw [malformed, h.malformed, hrecord, List.map_append, List.sum_append, List.map_singleton,
      List.sum_singleton]
  · rw [hrecord]
    refine List.forall_mem_append.2 ⟨h.accepts, List.forall_mem_singleton.2 fun hsome => ?_⟩
    obtain ⟨p, hop⟩ := Option.isSome_iff_exists.1 hsome
    exact accepts p hop

theorem Supplied.shutdown {ops : List Op} (h : w.Supplied stream ops)
    (live : (w.run ops).isGone = false)
    (contained : (w.run ops).Contained stream (w.harmOf (ops ++ [.shutdown]))) :
    w.Supplied stream (ops ++ [.shutdown]) := by
  have hshut : w.run (ops ++ [.shutdown]) =
      { w.run ops with
        isGone := true
        slots := (w.run ops).slots.reset (w.run ops).trail
        queues := .empty } := by
    rw [run_concat, step, Window.shutdown, if_neg (by rw [live]; exact Bool.false_ne_true)]
  apply h.concat (fun _ hop => by cases hop) <;> rw [hshut]
  · exact fed_of_empty rfl stream
  · exact contained.of_empty rfl rfl rfl rfl
  · rfl

theorem supplied_run (tsi : Tsi) (config : ValidConfig) (fits : stream.Fits config) {ops : List Op}
    (supplies : ∀ op ∈ ops, stream.Supplies op) : (create tsi config).Supplied stream ops := by
  induction ops using List.reverseRecOn with
  | nil => exact supplied_nil tsi config stream
  | append_singleton ops op ih =>
    rw [List.forall_mem_append] at supplies
    obtain ⟨part, hpackets⟩ := supplies.2 op (List.mem_singleton_self op)
    have h := ih supplies.1
    have hs : ((create tsi config).run ops).isGone = false → ((create tsi config).run ops).Sound :=
      fun live => (sound_run (sound_create tsi config) live).1
    have fits' : stream.Fits ((create tsi config).run ops).config := h.config ▸ fits
    have accepts : ∀ p, op.packet? = some p →
        (((create tsi config).run ops).step op).2.refusals = 0 :=
      fun p hop => refusals_of_packet hs h.fed fits' hop (hpackets p hop)
    have contained := h.contained.mono fun defined => harmOf_concat defined op
    cases hgone : ((create tsi config).run ops).isGone with
    | true =>
      have hsame := (run_concat (create tsi config) ops op).trans (step_of_gone hgone part)
      apply h.concat accepts <;> rw [hsame]
      · exact h.fed
      · exact contained
      · rw [refusals_of_gone hgone part, Nat.add_zero]
    | false =>
      by_cases hop : op = .shutdown
      · subst hop
        exact h.shutdown hgone contained
      · obtain ⟨notes, hmoves, htells⟩ := step_spec_of_ne (hs hgone) hgone part hop
        rw [← run_concat] at hmoves
        have stored : ∀ p ∈ Note.packets notes, p ∈ stream.packets := by
          intro p hp
          rw [htells.packets] at hp
          exact hpackets p (Op.packet?_of_mem_accepted hp)
        have covers := covers_concat tsi config (fun op hop => (supplies.1 op hop).1) hgone
          (hs hgone) hmoves htells
        obtain ⟨hfed, hcontained, hmalformed⟩ :=
          hmoves.contained (hs hgone) fits' stored h.fed contained covers
        exact h.concat accepts hfed hcontained hmoves.keeps.config (htells.refusals ▸ hmalformed)

/-- A slot is lost because it was given up itself, or because its APDU of several packets lost another
number or began before the window. Nothing is counted malformed but what was refused as such, and no
packet of the stream was refused. -/
theorem loss_contained (tsi : Tsi) (config : ValidConfig) (stream : Stream)
    (fits : stream.Fits config) (ops : List Op) (supplies : ∀ op ∈ ops, stream.Supplies op) :
    (∀ x slot, ((create tsi config).run ops).slots.get? x = some slot → slot.state = .lost →
      (create tsi config).GaveUp ops x ∨
        ∃ m ∈ stream.messages, 1 < m.packets ∧ m.Spans x ∧
          ((∃ y, y ≠ x ∧ m.Spans y ∧
              ((create tsi config).GaveUp ops y ∨ (create tsi config).LeftUnread ops y)) ∨
            m.Inside ((create tsi config).origin ops))) ∧
    ((create tsi config).run ops).counters.malformed =
      (((create tsi config).record ops).map (·.2.refusals)).sum ∧
    ∀ entry ∈ (create tsi config).record ops, entry.1.packet?.isSome → entry.2.refusals = 0 := by
  have supplied := supplied_run tsi config fits supplies
  refine ⟨fun x slot found lost => ?_, supplied.malformed, supplied.accepts⟩
  by_cases hgiven : (create tsi config).GaveUp ops x
  · exact .inl hgiven
  obtain ⟨m, hm, hx, hbreaks⟩ := (supplied.contained.lost found lost).resolve_left hgiven
  have several : ∀ {y}, y ≠ x → m.Spans y → 1 < m.packets := by
    intro y hne hy
    by_contra hone
    have hy0 : m.first.gap y = 0 := by unfold Message.Spans at hy; omega
    have hx0 : m.first.gap x = 0 := by unfold Message.Spans at hx; omega
    exact hne ((SeqNum.gap_eq_zero_iff.1 hy0).symm.trans (SeqNum.gap_eq_zero_iff.1 hx0))
  refine .inr ⟨m, hm, ?_⟩
  rcases hbreaks with (⟨y, hy, hyGiven⟩ | ⟨y, hy, rfl⟩) | ⟨y, hy, hleft⟩
  · have hne : y ≠ x := fun he => hgiven (he ▸ hyGiven)
    exact ⟨several hne hy, hx, .inl ⟨y, hne, hy, .inl hyGiven⟩⟩
  · have := hy.1
    have := hy.2
    unfold Message.Spans at this
    exact ⟨by omega, hx, .inr hy⟩
  · have hne : y ≠ x := by
      rintro rfl
      exact Nat.lt_irrefl _ hy
    have hySpans : m.Spans y := Nat.lt_trans hy hx
    exact ⟨several hne hySpans, hx, .inl ⟨y, hne, hySpans, .inr hleft⟩⟩

/-- The first fragment of an APDU is given up before it comes. -/
def orphanHistory : List Op :=
  [smallPush 4294967295 none 9, smallPush 1 (some ⟨0, 1, 2⟩) 2, .markLost 0]

theorem supplies_orphanHistory : ∀ op ∈ orphanHistory, smallStream.Supplies op := by
  have first : ⟨smallTsi, 4294967295, none, ⟨#[9]⟩⟩ ∈ smallStream.packets := List.mem_cons_self ..
  have last : ⟨smallTsi, 1, some ⟨0, 1, 2⟩, ⟨#[2]⟩⟩ ∈ smallStream.packets :=
    List.mem_cons_of_mem _ (List.mem_cons_of_mem _ (List.mem_cons_self ..))
  simp [orphanHistory, smallPush, Stream.Supplies, Op.isPart, Op.packet?, first, last]

/-- Nobody gives up the second fragment, and it is lost with the first one. -/
theorem loss_contained_small :
    smallStream.Fits smallConfig ∧ (∀ op ∈ orphanHistory, smallStream.Supplies op) ∧
      ∃ slot, ((create smallTsi smallConfig).run orphanHistory).slots.get? 1 = some slot ∧
        slot.state = .lost ∧ ∃ m ∈ smallStream.messages, 1 < m.packets ∧ m.Spans 1 ∧
          ((∃ y, y ≠ 1 ∧ m.Spans y ∧ ((create smallTsi smallConfig).GaveUp orphanHistory y ∨
              (create smallTsi smallConfig).LeftUnread orphanHistory y)) ∨
            m.Inside ((create smallTsi smallConfig).origin orphanHistory)) := by
  have fits := suits_smallStream.fits
  obtain ⟨slot, found, lost⟩ : ∃ slot, ((create smallTsi smallConfig).run
      orphanHistory).slots.get? 1 = some slot ∧ slot.state = .lost := ⟨_, by rfl, by rfl⟩
  refine ⟨fits, supplies_orphanHistory, slot, found, lost, ?_⟩
  refine ((loss_contained smallTsi smallConfig smallStream fits orphanHistory
    supplies_orphanHistory).1 1 slot found lost).resolve_left ?_
  rintro ⟨before, op, after, he, hgives⟩
  have hop : op ∈ orphanHistory := he ▸ List.mem_append_right before (List.mem_cons_self ..)
  simp only [orphanHistory, smallPush, List.mem_cons, List.not_mem_nil, or_false] at hop
  rcases hop with rfl | rfl | rfl
  · exact hgives
  · exact hgives
  · exact absurd hgives.1 (by decide)

end Window

end ReliableMulticast
