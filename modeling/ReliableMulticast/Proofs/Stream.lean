import ReliableMulticast.Proofs.Reassembly

/-!
# The sender's stream

What a sender has to say, as a list of APDUs with one fixed packet for each sequence number. Packets
of a stream that make up a message make up one of its APDUs (`Stream.mem_messages`): the fragment
options name the APDU's first packet, the numbers name all others, and as no fragment is empty its
length tells where it ends.
-/

namespace ReliableMulticast

/-- The packets are one APDU that starts at `first`. -/
inductive IsApdu (first : SeqNum) : List Packet → Prop
  | single {p : Packet} (sequence : p.sequence = first) (alone : p.fragment = none) :
      IsApdu first [p]
  | fragmented {apdu : List Packet} (nonempty : apdu ≠ [])
      (fragment : ∀ (i : Nat) (p : Packet), apdu[i]? = some p →
        p.sequence = first + i ∧ 0 < p.size ∧ ∃ f, p.fragment = some f ∧ f.apduFirst = first ∧
          f.totalLength.toNat = (apdu.map Packet.size).sum ∧
          f.offset.toNat = ((apdu.take i).map Packet.size).sum) : IsApdu first apdu

/-- The APDUs follow one another from number `s` on. -/
inductive Tiles : SeqNum → List (List Packet) → Prop
  | nil {s : SeqNum} : Tiles s []
  | cons {s : SeqNum} {apdu : List Packet} {rest : List (List Packet)} (whole : IsApdu s apdu)
      (later : Tiles (s + apdu.length) rest) : Tiles s (apdu :: rest)

/-- The APDUs as they are delivered, from number `s` on. -/
def messagesFrom : SeqNum → List (List Packet) → List Message
  | _, [] => []
  | s, apdu :: rest => ⟨s, apdu.length, joinPackets apdu⟩ :: messagesFrom (s + apdu.length) rest

/-- What a sender sends: each number has one packet, and the packets form APDUs. -/
structure Stream where
  start : SeqNum
  apdus : List (List Packet)
  tiles : Tiles start apdus
  length_le : apdus.flatten.length ≤ 4294967296

namespace Stream

def packets (stream : Stream) : List Packet := stream.apdus.flatten

/-- What a receiver is to deliver. -/
def messages (stream : Stream) : List Message := messagesFrom stream.start stream.apdus

end Stream

/-! ### Packets of a stream -/

theorem IsApdu.sequence {first : SeqNum} {apdu : List Packet} (h : IsApdu first apdu) {i : Nat}
    {p : Packet} (hi : apdu[i]? = some p) : p.sequence = first + i := by
  cases h with
  | single sequence _ =>
    cases i with
    | zero =>
      obtain rfl := Option.some.inj hi
      rw [sequence, SeqNum.add_zero]
    | succ i => cases hi
  | fragmented _ fragment => exact (fragment i p hi).1

theorem IsApdu.length_pos {first : SeqNum} {apdu : List Packet} (h : IsApdu first apdu) :
    0 < apdu.length := by
  cases h with
  | single => exact Nat.one_pos
  | fragmented nonempty _ => exact List.length_pos_iff.2 nonempty

namespace Tiles

variable {s : SeqNum} {apdus : List (List Packet)}

theorem sequence (h : Tiles s apdus) {i : Nat} {p : Packet} (hi : apdus.flatten[i]? = some p) :
    p.sequence = s + i := by
  induction h generalizing i with
  | nil => cases hi
  | @cons s apdu rest whole _ ih =>
    rw [List.flatten_cons] at hi
    by_cases hlt : i < apdu.length
    · rw [List.getElem?_append_left hlt] at hi
      exact whole.sequence hi
    · rw [List.getElem?_append_right (by omega)] at hi
      rw [ih hi, SeqNum.add_add, Nat.add_sub_cancel' (by omega)]

/-- Every packet belongs to an APDU of the stream. -/
theorem exists_apdu (h : Tiles s apdus) {p : Packet} (hp : p ∈ apdus.flatten) :
    ∃ first, ∃ apdu ∈ apdus, IsApdu first apdu ∧ p ∈ apdu ∧
      ⟨first, apdu.length, joinPackets apdu⟩ ∈ messagesFrom s apdus := by
  induction h with
  | nil => cases hp
  | @cons s apdu rest whole _ ih =>
    rw [List.flatten_cons, List.mem_append] at hp
    rcases hp with hp | hp
    · exact ⟨s, apdu, List.mem_cons_self .., whole, hp, List.mem_cons_self ..⟩
    · obtain ⟨first, apdu', hmem, whole', hp', hmessage⟩ := ih hp
      exact ⟨first, apdu', List.mem_cons_of_mem _ hmem, whole', hp',
        List.mem_cons_of_mem _ hmessage⟩

end Tiles

namespace Stream

variable {stream : Stream} {p q : Packet}

/-- Each number has one packet. -/
theorem eq_of_sequence_eq (hp : p ∈ stream.packets) (hq : q ∈ stream.packets)
    (h : p.sequence = q.sequence) : p = q := by
  obtain ⟨i, hi⟩ := List.getElem?_of_mem hp
  obtain ⟨j, hj⟩ := List.getElem?_of_mem hq
  have hlen := stream.length_le
  have hil : i < stream.apdus.flatten.length := (List.getElem?_eq_some_iff.1 hi).1
  have hjl : j < stream.apdus.flatten.length := (List.getElem?_eq_some_iff.1 hj).1
  rw [stream.tiles.sequence hi, stream.tiles.sequence hj,
    SeqNum.add_inj (by omega) (by omega)] at h
  rw [h] at hi
  exact Option.some.inj (hi.symm.trans hj)

/-- A packet without fragment option is an APDU by itself. -/
theorem mem_messages_of_alone (hp : p ∈ stream.packets) (alone : p.fragment = none) :
    ⟨p.sequence, 1, p.payload⟩ ∈ stream.messages := by
  obtain ⟨first, apdu, -, whole, hmem, hmessage⟩ := stream.tiles.exists_apdu hp
  cases whole with
  | single sequence _ =>
    obtain rfl := List.mem_singleton.1 hmem
    rw [sequence]
    exact (congrArg (Message.mk first 1) ByteArray.empty_append) ▸ hmessage
  | fragmented _ fragment =>
    obtain ⟨i, hi⟩ := List.getElem?_of_mem hmem
    obtain ⟨-, -, f, hf, -⟩ := fragment i p hi
    rw [alone] at hf
    cases hf

theorem size_pos (hp : p ∈ stream.packets) {f : Fragment} (hf : p.fragment = some f) :
    0 < p.size := by
  obtain ⟨first, apdu, -, whole, hmem, -⟩ := stream.tiles.exists_apdu hp
  cases whole with
  | single _ alone =>
    obtain rfl := List.mem_singleton.1 hmem
    rw [alone] at hf
    cases hf
  | fragmented _ fragment =>
    obtain ⟨i, hi⟩ := List.getElem?_of_mem hmem
    exact (fragment i p hi).2.1

end Stream

/-- Packets that add nothing to the size of those before them are none, unless they are empty. -/
theorem eq_of_prefix_of_sum_eq {ps qs : List Packet} (hbegins : ps <+: qs)
    (hsum : (ps.map Packet.size).sum = (qs.map Packet.size).sum) (hpos : ∀ q ∈ qs, 0 < q.size) :
    ps = qs := by
  obtain ⟨rest, rfl⟩ := hbegins
  cases rest with
  | nil => exact (List.append_nil ps).symm
  | cons q rest =>
    have := hpos q (List.mem_append_right ps (List.mem_cons_self ..))
    simp only [List.map_append, List.sum_append, List.map_cons, List.sum_cons] at hsum
    omega

/-- Of two lists that agree as far as both go, one begins with the other. -/
theorem prefix_total {α : Type} {l m : List α}
    (h : ∀ (i : Nat) (a b : α), l[i]? = some a → m[i]? = some b → a = b) : l <+: m ∨ m <+: l := by
  induction l generalizing m with
  | nil => exact .inl (List.nil_prefix ..)
  | cons a l ih =>
    cases m with
    | nil => exact .inr (List.nil_prefix ..)
    | cons b m =>
      obtain rfl := h 0 a b rfl rfl
      have later := ih (m := m) fun i x y hx hy => h (i + 1) x y hx hy
      simpa only [List.cons_prefix_cons, true_and] using later

/-- Packets of a stream that make up a message are one of its APDUs. -/
theorem Stream.mem_messages {stream : Stream} {ps : List Packet} {m : Message}
    (h : Reassembles ps m) (hps : ∀ p ∈ ps, p ∈ stream.packets) : m ∈ stream.messages := by
  rcases h.options with ⟨p, rfl, alone, hpayload⟩ | ⟨total, hsum, hoptions⟩
  · have hp := mem_messages_of_alone (hps p (List.mem_singleton_self p)) alone
    have hfirst : p.sequence = m.first := by simpa using h.sequence 0 p rfl
    have hlength : 1 = m.packets := h.length
    rwa [hfirst, hlength, ← hpayload] at hp
  · have hpos : 0 < ps.length := h.length ▸ h.pos
    obtain ⟨head, hhead⟩ : ∃ head, ps[0]? = some head := ⟨_, List.getElem?_eq_getElem hpos⟩
    obtain ⟨f, hf, hfirst, htotal, -⟩ := hoptions 0 head hhead
    obtain ⟨first, apdu, hin, whole, hmem, hmessage⟩ :=
      stream.tiles.exists_apdu (hps head (List.mem_of_getElem? hhead))
    have hall : ∀ q ∈ apdu, q ∈ stream.packets := fun q hq => List.mem_flatten.2 ⟨apdu, hin, hq⟩
    cases whole with
    | single _ alone =>
      obtain rfl := List.mem_singleton.1 hmem
      rw [alone] at hf
      cases hf
    | fragmented nonempty fragment =>
      obtain ⟨j, hj⟩ := List.getElem?_of_mem hmem
      obtain ⟨-, -, f', hf', hfirst', htotal', -⟩ := fragment j head hj
      obtain rfl := Option.some.inj (hf.symm.trans hf')
      obtain rfl : first = m.first := hfirst'.symm.trans hfirst
      have hsums : (ps.map Packet.size).sum = (apdu.map Packet.size).sum := by
        rw [hsum, ← htotal, htotal']
      -- Number by number the packets are those of the APDU, and the lengths end both together.
      have hsame : ps = apdu := by
        have hagree : ∀ (i : Nat) (p q : Packet), ps[i]? = some p → apdu[i]? = some q → p = q := by
          intro i p q hp hq
          refine eq_of_sequence_eq (hps p (List.mem_of_getElem? hp))
            (hall q (List.mem_of_getElem? hq)) ?_
          rw [h.sequence i p hp, (fragment i q hq).1]
        rcases prefix_total hagree with hbegins | hbegins
        · refine eq_of_prefix_of_sum_eq hbegins hsums fun q hq => ?_
          obtain ⟨i, hi⟩ := List.getElem?_of_mem hq
          exact (fragment i q hi).2.1
        · refine (eq_of_prefix_of_sum_eq hbegins hsums.symm fun p hp => ?_).symm
          obtain ⟨i, hi⟩ := List.getElem?_of_mem hp
          obtain ⟨g, hg, -⟩ := hoptions i p hi
          exact size_pos (hps p hp) hg
      have hm : m = ⟨m.first, apdu.length, joinPackets apdu⟩ := by
        rw [← hsame, h.length, ← h.payload]
      rw [hm]
      exact hmessage

/-! ### A small stream -/

/-- A packet of its own and an APDU of two fragments, across the end of the number space. -/
def smallStream : Stream where
  start := 4294967295
  apdus :=
    [[⟨Window.smallTsi, 4294967295, none, ⟨#[9]⟩⟩],
      [⟨Window.smallTsi, 0, some ⟨0, 0, 2⟩, ⟨#[1]⟩⟩, ⟨Window.smallTsi, 1, some ⟨0, 1, 2⟩, ⟨#[2]⟩⟩]]
  tiles := by
    refine .cons (.single rfl rfl) (.cons (.fragmented (by simp) fun i p hi => ?_) .nil)
    match i with
    | 0 =>
      obtain rfl := Option.some.inj hi
      exact ⟨rfl, by decide, _, rfl, rfl, rfl, rfl⟩
    | 1 =>
      obtain rfl := Option.some.inj hi
      exact ⟨rfl, by decide, _, rfl, rfl, rfl, rfl⟩
  length_le := by decide

end ReliableMulticast
