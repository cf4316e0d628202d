import ReliableMulticast.Proofs.Front
import ReliableMulticast.Proofs.Lossless
import ReliableMulticast.Proofs.Stream

/-!
# A stream arrives

A window that takes in packets of one stream and no others refuses none of them: what it knows of an
APDU it has from packets of that APDU, so a packet cannot contradict it (`isMalformed_eq_false`).
As long as nothing is lost, a packet that was taken in is held until its number is delivered
(`holds_of_acceptData`), and every step leaves the front at rest (`step_of_brings`).
-/

namespace ReliableMulticast

theorem sum_take_add_le {l : List Nat} {i n : Nat} (h : l[i]? = some n) :
    (l.take i).sum + n ≤ l.sum := by
  have hsplit := congrArg List.sum (List.take_append_drop (i + 1) l)
  rw [List.take_add_one, h] at hsplit
  simp only [List.sum_append, Option.toList_some, List.sum_cons, List.sum_nil] at hsplit
  omega

/-- What a fragment of an APDU says: it lies within the APDU, only the first one is at its start, and
that one tells the same length. -/
theorem IsApdu.of_fragment {first : SeqNum} {apdu : List Packet} (h : IsApdu first apdu) {i : Nat}
    {p : Packet} (hi : apdu[i]? = some p) {f : Fragment} (hf : p.fragment = some f) :
    f.apduFirst = first ∧ f.offset.toNat + p.size ≤ f.totalLength.toNat ∧ (f.offset = 0 ↔ i = 0) ∧
      ∃ head g, apdu[0]? = some head ∧ head.fragment = some g ∧ g.totalLength = f.totalLength := by
  cases h with
  | single _ alone =>
    obtain rfl := List.mem_singleton.1 (List.mem_of_getElem? hi)
    rw [alone] at hf
    cases hf
  | fragmented nonempty fragment =>
    obtain ⟨-, -, f', hf', hfirst, htotal, hoffset⟩ := fragment i p hi
    obtain rfl := Option.some.inj (hf.symm.trans hf')
    obtain ⟨head, hhead⟩ : ∃ head, apdu[0]? = some head :=
      ⟨_, List.getElem?_eq_getElem (List.length_pos_iff.2 nonempty)⟩
    obtain ⟨-, hpos, g, hg, -, htotal', -⟩ := fragment 0 head hhead
    refine ⟨hfirst, ?_, ?_, head, g, hhead, hg, UInt32.toNat_inj.1 (htotal'.trans htotal.symm)⟩
    · have hsum := sum_take_add_le (l := apdu.map Packet.size) (i := i) (n := p.size)
        (by rw [List.getElem?_map, hi]; rfl)
      rw [← List.map_take] at hsum
      omega
    · rw [← UInt32.toNat_inj, hoffset, UInt32.toNat_zero]
      refine ⟨fun hsum => ?_, fun hzero => by rw [hzero]; rfl⟩
      -- The first fragment is not empty, so all others are at a later offset.
      by_contra hi0
      have hstart := sum_take_add_le (l := (apdu.take i).map Packet.size) (i := 0) (n := head.size)
        (by rw [List.getElem?_map, List.getElem?_take_of_lt (by omega), hhead]; rfl)
      omega

/-- The stream is one for windows of this session and configuration: its numbers stand in the order
of its packets, no packet is oversized, and a window has room for each APDU. -/
structure Stream.Suits (stream : Stream) (tsi : Tsi) (config : ValidConfig) : Prop where
  length_lt : stream.packets.length < 2147483648
  session : ∀ p ∈ stream.packets, p.tsi = tsi
  size_le : ∀ p ∈ stream.packets, p.size ≤ config.1.maxTpdu.toNat
  apdu_le : ∀ apdu ∈ stream.apdus, apdu.length ≤ config.1.capacity.toNat

/-- The stream is one for windows of this configuration: no packet is oversized, and a window has room
for each APDU. -/
structure Stream.Fits (stream : Stream) (config : ValidConfig) : Prop where
  size_le : ∀ p ∈ stream.packets, p.size ≤ config.1.maxTpdu.toNat
  apdu_le : ∀ apdu ∈ stream.apdus, apdu.length ≤ config.1.capacity.toNat

theorem Stream.Suits.fits {stream : Stream} {tsi : Tsi} {config : ValidConfig}
    (h : stream.Suits tsi config) : stream.Fits config :=
  ⟨h.size_le, h.apdu_le⟩

/-- The data packet that an operation takes in. -/
def Window.Op.packet? : Window.Op → Option Packet
  | .push p _ => some p
  | .pushRepair p _ _ => some p
  | _ => none

/-- The operation takes in a packet of the stream, or it is one of those that a receiver does between
packets. -/
def Stream.Brings (stream : Stream) : Window.Op → Prop
  | .push p _ => p ∈ stream.packets
  | .pushRepair p _ _ => p ∈ stream.packets
  | .confirmNak .. | .sweep _ | .read _ | .release | .free => True
  | _ => False

theorem Stream.Brings.mem {stream : Stream} {op : Window.Op} {p : Packet} (h : stream.Brings op)
    (hop : op.packet? = some p) : p ∈ stream.packets := by
  cases op with
  | push q now =>
    obtain rfl := Option.some.inj hop
    exact h
  | pushRepair q source now =>
    obtain rfl := Option.some.inj hop
    exact h
  | _ => cases hop

theorem Stream.Brings.isPart {stream : Stream} {op : Window.Op} (h : stream.Brings op) :
    op.isPart ∧ op ≠ .shutdown := by
  cases op with
  | shutdown | repair => cases h
  | _ => exact ⟨rfl, nofun⟩

namespace Window

variable {w w' : Window} {notes : List Note} {stream : Stream} {packets : List Packet} {p : Packet}
  {op : Op} {x : SeqNum}

/-! ### Well-formed packets -/

/-- A slot whose packet arrived has the fragment option of a packet of its number. -/
def Marked (w : Window) (packets : List Packet) : Prop :=
  ∀ x slot, w.slots.get? x = some slot → slot.state.hasData →
    ∃ p ∈ packets, p.sequence = x ∧ slot.fragment = p.fragment

theorem marked_of_empty (empty : w.slots.size = 0) (packets : List Packet) : w.Marked packets :=
  fun x _ found => by cases (get?_of_empty empty x).symm.trans found

theorem Move.marked (hm : w.Move notes w') (hs : w.Sound) (h : w.Marked packets)
    (stored : ∀ p ∈ Note.packets notes, p ∈ packets) : w'.Marked packets := by
  intro x new found held
  rcases hm.data_cases hs found held with ⟨p, rfl, rfl, hcarries⟩ | ⟨-, old, hold, hkeeps⟩
  · exact ⟨p, stored p (List.mem_singleton_self p), rfl, hcarries.fragment⟩
  · obtain ⟨p, hp, hx, hf⟩ := h x old hold hkeeps.hasData
    exact ⟨p, hp, hx, hkeeps.fragment ▸ hf⟩

theorem Moves.marked (hm : w.Moves notes w') (hs : w.Sound) (h : w.Marked packets)
    (stored : ∀ p ∈ Note.packets notes, p ∈ packets) : w'.Marked packets := by
  induction hm with
  | done => exact h
  | next first _ ih =>
    rw [Note.packets_append] at stored
    exact ih (first.sound hs) (first.marked hs h fun p hp => stored p (List.mem_append_left _ hp))
      fun p hp => stored p (List.mem_append_right _ hp)

/-- A fragment is not held against the head of its APDU, which tells the same length. -/
theorem contradictsHead_eq_false (marked : w.Marked stream.packets) {head : Packet}
    (hhead : head ∈ stream.packets) {f g : Fragment} (hg : head.fragment = some g)
    (first : f.apduFirst = head.sequence) (same : g.totalLength = f.totalLength) :
    w.contradictsHead f = false := by
  rw [contradictsHead, slotIs]
  cases found : w.slots.get? f.apduFirst with
  | none => rfl
  | some slot =>
    rw [Option.any_some, Bool.and_eq_false_iff]
    cases held : slot.state.hasData with
    | false => exact .inl rfl
    | true =>
      obtain ⟨q, hq, hsequence, hfragment⟩ := marked _ slot found held
      obtain rfl : q = head := Stream.eq_of_sequence_eq hq hhead (hsequence.trans first)
      rw [hfragment, hg]
      exact .inr (by simp [same])

/-- A fragment of the stream agrees with what is known of its APDU. -/
theorem isMalformedFragment_eq_false (hs : w.Sound) (marked : w.Marked stream.packets)
    {apdu : List Packet} (hin : apdu ∈ stream.apdus) (room : apdu.length ≤ w.capacity)
    {first : SeqNum} (whole : IsApdu first apdu) {i : Nat} (hi : apdu[i]? = some p) {f : Fragment}
    (hf : p.fragment = some f) : w.isMalformedFragment p f = false := by
  obtain ⟨hfirst, hlength, hzero, head, g, hhead, hg, hsame⟩ := whole.of_fragment hi hf
  have hsequence := whole.sequence hi
  have hcap := hs.capacity_le
  have hlt : i < apdu.length := (List.getElem?_eq_some_iff.1 hi).1
  have hgap : first.gap p.sequence = i := by rw [hsequence, SeqNum.gap_add _ (by omega)]
  have hstarts : first = p.sequence ↔ i = 0 := by rw [← SeqNum.gap_eq_zero_iff, hgap]
  have hbefore : ¬ first.After p.sequence := by
    have hback := SeqNum.before_add_iff first (m := i) (n := 0) (by omega) (by omega)
    rw [SeqNum.add_zero, ← hsequence] at hback
    exact fun hafter => Nat.not_lt_zero i (hback.1 hafter)
  have hagrees : w.contradictsHead f = false := by
    refine contradictsHead_eq_false marked ?_ hg ?_ hsame
    · exact List.mem_flatten.2 ⟨apdu, hin, List.mem_of_getElem? hhead⟩
    · rw [hfirst, whole.sequence hhead, SeqNum.add_zero]
  simp only [isMalformedFragment, hagrees, hbefore, hfirst, hgap, hstarts, hzero, bne_self_eq_false,
    Bool.and_false, Bool.or_false, Bool.or_eq_false_iff, decide_eq_false_iff_not]
  exact ⟨⟨not_false, by omega⟩, by omega⟩

/-- A window that knows packets of the stream refuses none of it. -/
theorem isMalformed_eq_false (h : stream.Fits w.config) (hs : w.Sound)
    (marked : w.Marked stream.packets) (hp : p ∈ stream.packets) : w.isMalformed p = false := by
  have hsize : w.isOversized p = false := decide_eq_false (Nat.not_lt.2 (h.size_le p hp))
  rw [isMalformed, hsize, Bool.false_or]
  cases hf : p.fragment with
  | none => rfl
  | some f =>
    obtain ⟨first, apdu, hin, whole, hmem, -⟩ := stream.tiles.exists_apdu hp
    obtain ⟨i, hi⟩ := List.getElem?_of_mem hmem
    exact isMalformedFragment_eq_false hs marked hin (hs.capacity ▸ h.apdu_le apdu hin) whole hi hf

/-! ### Taking in -/

/-- The window is done with the number. -/
def Passed (w : Window) (x : SeqNum) : Prop :=
  x.Before w.trail ∨ w.place x < w.place w.commitTrail

theorem Holds.resolve (hx : w.Holds x) (hs : w.Sound) (defined : w.isDefined) :
    w.resolve.Holds x ∨ w.counters.losses < w.resolve.counters.losses := by
  rcases (moves_resolve hs).holds hs defined hx with hheld | hread | hlost
  · exact .inl hheld
  · cases hread
  · exact .inr hlost

theorem lostAhead_pos (hs : w.Sound) {slot : Slot} (found : w.slots.get? x = some slot)
    (lost : slot.state = .lost) (ahead : w.place w.commitTrail ≤ w.place x) : 0 < w.lostAhead := by
  have hlt := place_lt_of_get? found
  refine List.countP_pos_iff.2 ⟨slot, SlotRing.mem_slice.2
    ⟨w.commitTrail.gap x, ?_, by rw [SeqNum.add_gap, found]⟩, by simp [Slot.isLost, lost]⟩
  rw [hs.gap_next, gap_eq_place_sub ahead]
  omega

/-- A packet is held once it was taken in, unless it came too late or something is lost. -/
theorem holds_of_acceptData (hs : w.Sound) (defined : w.isDefined) (none_lost : w.lostAhead = 0)
    (wellFormed : w.isMalformed p = false) (source : Option RepairSource) (now : Timestamp) :
    (w.acceptData p source now).1.Holds p.sequence ∨ w.Passed p.sequence ∨
      w.counters.losses < (w.acceptData p source now).1.counters.losses := by
  have settles : ∀ {v : Window} {notes : List Note}, w.Moves notes v → v.Holds p.sequence →
      v.resolve.Holds p.sequence ∨ w.Passed p.sequence ∨
        w.counters.losses < v.resolve.counters.losses := by
    intro v notes hmoves hheld
    rcases hheld.resolve (hmoves.sound hs) (hmoves.keeps.isDefined defined) with hheld | hlost
    · exact .inl hheld
    · exact .inr (.inr (Nat.lt_of_le_of_lt (hmoves.losses_le hs) hlost))
  have htakes := takes_acceptData wellFormed source now
  rw [show w.ensureDefined p.sequence = w from if_pos defined] at htakes
  generalize w.acceptData p source now = answer at htakes
  cases htakes with
  | behind before => exact .inr (.inl (.inl before))
  | ahead after =>
    obtain ⟨found, notes, -, hmoves⟩ := extend_spec hs defined (after_lead_iff.1 after) now
    exact settles hmoves ⟨_, found, rfl⟩
  | lost found lost =>
    refine .inr (.inl (.inr (Nat.lt_of_not_le fun ahead => ?_)))
    have := lostAhead_pos hs found lost ahead
    omega
  | @duplicate slot found held =>
    by_cases behind : w.place p.sequence < w.place w.commitTrail
    · exact .inr (.inl (.inr behind))
    · have undelivered := (hs.slots found).undelivered behind
      exact .inl ⟨slot, found, SlotState.eq_haveData held undelivered⟩
  | @missing slot found pending =>
    refine settles (Move.fill p source now found pending).moves ?_
    have hget := get?_modify w p.sequence p.sequence fun old =>
      old.fill p.payload p.fragment (source = some .parity)
    rw [if_pos rfl, found] at hget
    exact ⟨_, hget, rfl⟩

/-! ### Steps -/

/-- What an operation stores is the packet that it takes in. -/
theorem Op.packet?_of_mem_accepted {answer : Answer} (hp : p ∈ op.accepted answer) :
    op.packet? = some p := by
  have stored : ∀ {q : Packet} {r : Receipt}, p ∈ (if r.outcome.stores then [q] else []) →
      some q = some p := by
    intro q r hq
    split at hq
    · rw [List.mem_singleton.1 hq]
    · cases hq
  cases op with
  | push | pushRepair =>
    cases answer with
    | receipt r => exact stored hp
    | _ => cases hp
  | _ => cases hp

/-- A data packet of the window's session is taken in, however it is sent. -/
theorem exists_step_eq (hop : op.packet? = some p) :
    ∃ source now, ∀ w : Window, w.isGone = false → p.tsi = w.tsi →
      w.step op = ((w.acceptData p source now).1, .receipt (w.acceptData p source now).2) := by
  have taken : ∀ (w : Window) (accept : Window → Window × Receipt), w.isGone = false →
      p.tsi = w.tsi → w.forSession p.tsi accept = accept w := by
    intro w accept live session
    rw [forSession, if_neg (not_not_intro session), whileLive_of_live live]
  cases op with
  | push q now =>
    obtain rfl := Option.some.inj hop
    refine ⟨none, now, fun w live session => ?_⟩
    rw [step, push, taken w _ live session]
    rfl
  | pushRepair q source now =>
    obtain rfl := Option.some.inj hop
    refine ⟨some source, now, fun w live session => ?_⟩
    rw [step, pushRepair, taken w _ live session]
    rfl
  | _ => cases hop

/-- A step leaves the front at rest, and it counts no packet malformed unless something is lost. -/
theorem step_of_brings (hs : w.Sound) (live : w.isGone = false) (suits : stream.Suits w.tsi w.config)
    (marked : w.Marked stream.packets) (brings : stream.Brings op) (h : w.AtRest) :
    (w.step op).1.AtRest ∧ w.Clean (w.step op).1 := by
  have taken : ∀ {p}, op.packet? = some p → (w.step op).1.AtRest ∧ w.Clean (w.step op).1 := by
    intro p hop
    have hp := brings.mem hop
    obtain ⟨source, now, hstep⟩ := exists_step_eq hop
    rw [hstep w live (suits.session p hp)]
    have wellFormed := isMalformed_eq_false suits.fits hs marked hp
    exact ⟨h.acceptData p source now, clean_acceptData wellFormed source now⟩
  cases op with
  | push | pushRepair => exact taken rfl
  | confirmNak s sent now =>
    simp only [step, confirmNak, whileLive_of_live live]
    exact ⟨h.acceptNcf hs s sent now, w.clean_acceptNcf s sent now⟩
  | sweep now =>
    simp only [step, sweep, whileLive_of_live live]
    exact ⟨atRest_sweepAll hs now, w.clean_sweepAll now⟩
  | read count =>
    rw [step_read live]
    exact ⟨h.readReady hs count, w.clean_readReady count⟩
  | release =>
    simp only [step, release, whileLive_of_live live]
    exact ⟨h.releaseUpTo _ hs, .of_counters_eq (counters_releaseUpTo _ w)⟩
  | free =>
    simp only [step, free, live]
    exact ⟨h.freeDelivered hs, .of_counters_eq w.counters_freeDelivered⟩
  | _ => cases brings

/-- Reading from a window at rest gives nothing up. -/
theorem AtRest.losses_read (h : w.AtRest) (hs : w.Sound) (live : w.isGone = false) (count : Nat) :
    (w.step (.read count)).1.counters.losses = w.counters.losses := by
  rw [step_read live, h.readReady_eq hs]
  exact (losses_takeReady ..).1

theorem AtRest.losses_reads (h : w.AtRest) (hs : w.Sound) (live : w.isGone = false)
    (counts : List Nat) : (w.run (counts.map .read)).counters.losses = w.counters.losses := by
  induction counts generalizing w with
  | nil => rfl
  | cons count counts ih =>
    have hread := h.losses_read hs live count
    obtain ⟨_, hmoves, -⟩ := readReady_spec hs count
    have later := ih (h.readReady hs count) (hmoves.sound hs) (hmoves.keeps.isGone.trans live)
    rw [List.map_cons, run, List.foldl_cons]
    rw [step_read live] at hread ⊢
    exact later.trans hread

end Window

end ReliableMulticast
