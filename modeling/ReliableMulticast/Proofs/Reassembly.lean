import ReliableMulticast.Proofs.History
import ReliableMulticast.Proofs.Slotwise

/-!
# Where the data of a message comes from

The data of a slot is the payload of the last packet that was accepted with the slot's number
(`HoldsLatest`), whatever was lost, evicted or delivered around it. With what a window hands out
(`HoldsMessage`) this gives the origin of every message: its packets, each accepted in the course of
the history, with payloads that make up the message and fragment options that say so.
-/

namespace ReliableMulticast

/-- The last of the packets that has number `s`. -/
def latest (packets : List Packet) (s : SeqNum) : Option Packet :=
  (packets.filter (·.sequence = s)).getLast?

theorem latest_concat_self (packets : List Packet) (p : Packet) :
    latest (packets ++ [p]) p.sequence = some p := by
  simp [latest, List.filter_append]

theorem latest_append_of_ne (packets : List Packet) {more : List Packet} {s : SeqNum}
    (h : ∀ p ∈ more, s ≠ p.sequence) : latest (packets ++ more) s = latest packets s := by
  have hnone : more.filter (·.sequence = s) = [] := by
    simpa [List.filter_eq_nil_iff] using fun p hp he => h p hp he.symm
  rw [latest, latest, List.filter_append, hnone, List.append_nil]

theorem mem_of_latest {packets : List Packet} {s : SeqNum} {p : Packet}
    (h : latest packets s = some p) : p ∈ packets ∧ p.sequence = s := by
  simpa using List.mem_filter.1 (List.mem_of_getLast? h)

/-- The slot has the data and the fragment option of the packet. -/
structure Slot.Carries (slot : Slot) (p : Packet) : Prop where
  payload : slot.payload = some p.payload
  fragment : slot.fragment = p.fragment

namespace Window

variable {w w' : Window} {notes : List Note} {packets : List Packet}

/-! ### What moves do to data -/

/-- A slot has the data that it had before, unless it was delivered meanwhile and may have dropped
it. -/
structure KeepsData (old new : Slot) : Prop where
  hasData : old.state.hasData
  fragment : old.fragment = new.fragment
  payload : ∀ bytes ∈ new.payload, bytes ∈ old.payload
  undelivered : new.state = .haveData → old.state = .haveData ∧ old.payload = new.payload

/-- Data comes with the packet that a move stores, or was there before it. -/
theorem Move.data_cases (hm : w.Move notes w') (h : w.Sound) {x : SeqNum} {new : Slot}
    (hs : w'.slots.get? x = some new) (hd : new.state.hasData) :
    (∃ p, notes = [.stored p] ∧ p.sequence = x ∧ new.Carries p) ∨
      (∀ p ∈ Note.packets notes, x ≠ p.sequence) ∧
        ∃ old, w.slots.get? x = some old ∧ KeepsData old new := by
  have kept : ∀ {old : Slot}, w.slots.get? x = some old → Note.packets notes = [] →
      KeepsData old new → (∀ p ∈ Note.packets notes, x ≠ p.sequence) ∧
        ∃ old, w.slots.get? x = some old ∧ KeepsData old new :=
    fun hold hnone hkeeps => ⟨fun p hp => absurd (hnone ▸ hp) List.not_mem_nil, _, hold, hkeeps⟩
  rcases hm.slot_cases h hs with harises | ⟨old, hold, hturns⟩
  · cases harises with
    | placeholder => cases hd
    | packet p now here _ => exact .inl ⟨p, rfl, here, rfl, rfl⟩
  · cases hturns with
    | same spared => exact .inr ⟨spared, new, hold, hd, rfl, fun _ hb => hb, fun hn => ⟨hn, rfl⟩⟩
    | fill p _ _ here => exact .inl ⟨p, rfl, here, rfl, rfl⟩
    | wait pending waits =>
      have := waits.pending pending
      rw [(SlotState.hasData_iff.1 hd).2] at this
      cases this
    | keep => cases hd
    | lose | spoil | orphan =>
      rw [old.state_lose] at hd
      cases hd
    | commit m held => exact .inr (kept hold rfl ⟨by rw [held]; rfl, rfl, fun _ hb => hb, nofun⟩)
    | retain =>
      refine .inr (kept hold rfl ?_)
      rcases old.retain_cases with he | ⟨hc, he⟩ <;> rw [he] at hd ⊢
      · exact ⟨hd, rfl, fun _ hb => hb, fun hn => ⟨hn, rfl⟩⟩
      · exact ⟨by rw [hc]; rfl, rfl, fun _ hb => hb, nofun⟩
    | free =>
      refine .inr (kept hold rfl ?_)
      rcases old.dropPayload_cases with he | ⟨hc, he⟩ <;> rw [he] at hd ⊢
      · exact ⟨hd, rfl, fun _ hb => hb, fun hn => ⟨hn, rfl⟩⟩
      · exact ⟨by rw [hc]; rfl, rfl, nofun, fun hn => by rw [hc] at hn; cases hn⟩

/-- What is held for delivery is the last packet of its number. -/
def HoldsLatest (w : Window) (packets : List Packet) : Prop :=
  ∀ x slot, w.slots.get? x = some slot → slot.state = .haveData →
    ∃ p, latest packets x = some p ∧ slot.Carries p

theorem Move.holdsLatest (hm : w.Move notes w') (hsound : w.Sound) (h : w.HoldsLatest packets) :
    w'.HoldsLatest (packets ++ Note.packets notes) := by
  intro x new hs hd
  rcases hm.data_cases hsound hs (by rw [hd]; rfl) with ⟨p, rfl, rfl, hcarries⟩ | ⟨hne, old, hold, hkeeps⟩
  · exact ⟨p, latest_concat_self packets p, hcarries⟩
  · obtain ⟨hheld, hpayload⟩ := hkeeps.undelivered hd
    obtain ⟨p, hp, hcarries⟩ := h x old hold hheld
    rw [latest_append_of_ne packets hne]
    exact ⟨p, hp, hpayload ▸ hcarries.payload, hkeeps.fragment ▸ hcarries.fragment⟩

theorem Moves.holdsLatest (hm : w.Moves notes w') (hsound : w.Sound) (h : w.HoldsLatest packets) :
    w'.HoldsLatest (packets ++ Note.packets notes) := by
  induction hm generalizing packets with
  | done =>
    rw [show Note.packets [] = [] from rfl, List.append_nil]
    exact h
  | next first _ ih =>
    rw [Note.packets_append, ← List.append_assoc]
    exact ih (first.sound hsound) (first.holdsLatest hsound h)

end Window

/-! ### From slots to packets -/

/-- The data of the packets, one after the other. -/
def joinPackets (packets : List Packet) : ByteArray :=
  packets.foldl (fun bytes p => bytes ++ p.payload) .empty

/-- The message is made up of the packets, and they say so themselves: either a single one without
fragment option, or the fragments of one APDU without a gap between them. -/
structure Reassembles (packets : List Packet) (m : Message) : Prop where
  length : packets.length = m.packets
  pos : 0 < m.packets
  sequence : ∀ (i : Nat) (p : Packet), packets[i]? = some p → p.sequence = m.first + i
  payload : m.payload = joinPackets packets
  options :
    (∃ p, packets = [p] ∧ p.fragment = none ∧ m.payload = p.payload) ∨
      ∃ total, (packets.map Packet.size).sum = total ∧
        ∀ (i : Nat) (p : Packet), packets[i]? = some p →
          ∃ f, p.fragment = some f ∧ f.apduFirst = m.first ∧ f.totalLength.toNat = total ∧
            f.offset.toNat = ((packets.take i).map Packet.size).sum

theorem joinSlots_eq_joinPackets {slots : List Slot} {packets : List Packet}
    (h : List.Forall₂ Slot.Carries slots packets) : joinSlots slots = joinPackets packets := by
  have from_here : ∀ bytes : ByteArray,
      slots.foldl (fun bytes slot => bytes ++ slot.payload.getD .empty) bytes =
        packets.foldl (fun bytes p => bytes ++ p.payload) bytes := by
    induction h with
    | nil => exact fun _ => rfl
    | cons hcarries _ ih =>
      intro bytes
      rw [List.foldl_cons, List.foldl_cons, hcarries.payload, Option.getD_some, ih]
  exact from_here .empty

theorem Slot.Carries.payloadSize {slot : Slot} {p : Packet} (h : slot.Carries p) :
    slot.payloadSize = p.size := by
  rw [Slot.payloadSize, h.payload]
  rfl

/-- If every slot of a stretch carries a packet, the packets stand in line with the slots. -/
theorem exists_carried {R : SeqNum → Packet → Prop} {slots : List Slot} (s : SeqNum)
    (h : ∀ (k : Nat) (slot : Slot), slots[k]? = some slot → ∃ p, R (s + k) p ∧ slot.Carries p) :
    ∃ packets, List.Forall₂ Slot.Carries slots packets ∧
      ∀ (k : Nat) (p : Packet), packets[k]? = some p →
        R (s + k) p ∧ ∃ slot, slots[k]? = some slot ∧ slot.Carries p := by
  induction slots generalizing s with
  | nil => exact ⟨[], .nil, fun k p hk => by cases hk⟩
  | cons slot slots ih =>
    obtain ⟨p, hp, hcarries⟩ := h 0 slot rfl
    obtain ⟨packets, hall, hrest⟩ := ih s.next fun k slot hk => by
      rw [SeqNum.next_add]
      exact h (k + 1) slot hk
    refine ⟨p :: packets, .cons hcarries hall, fun k q hk => ?_⟩
    cases k with
    | zero =>
      obtain rfl := Option.some.inj hk
      exact ⟨hp, slot, rfl, hcarries⟩
    | succ k =>
      rw [List.getElem?_cons_succ] at hk
      rw [← SeqNum.next_add]
      exact hrest k q hk

/-- The fragment options of an APDU's packets, from its byte `received` on. -/
theorem Fragments.carried {first : SeqNum} {total received : Nat} {apdu : List Slot}
    (h : Fragments first total received apdu) :
    ∀ {packets : List Packet}, List.Forall₂ Slot.Carries apdu packets →
      received + (packets.map Packet.size).sum = total ∧
        ∀ (i : Nat) (p : Packet), packets[i]? = some p →
          ∃ f, p.fragment = some f ∧ f.apduFirst = first ∧ f.totalLength.toNat = total ∧
            f.offset.toNat = received + ((packets.take i).map Packet.size).sum := by
  induction h with
  | last _ continues full =>
    intro packets hc
    obtain ⟨p, rest, hcarries, hrest, rfl⟩ := List.forall₂_cons_left_iff.1 hc
    obtain rfl := List.forall₂_nil_left_iff.1 hrest
    refine ⟨by simpa [← hcarries.payloadSize] using full, fun i q hi => ?_⟩
    cases i with
    | zero =>
      obtain rfl := Option.some.inj hi
      obtain ⟨f, hf, hfirst, htotal, hoffset⟩ := continues
      exact ⟨f, hcarries.fragment ▸ hf, hfirst, htotal, by simpa using hoffset⟩
    | succ i => cases hi
  | more _ continues _ _ ih =>
    intro packets hc
    obtain ⟨p, rest, hcarries, hrest, rfl⟩ := List.forall₂_cons_left_iff.1 hc
    obtain ⟨hsum, hoptions⟩ := ih hrest
    rw [hcarries.payloadSize] at hsum hoptions
    refine ⟨by rw [List.map_cons, List.sum_cons]; omega, fun i q hi => ?_⟩
    cases i with
    | zero =>
      obtain rfl := Option.some.inj hi
      obtain ⟨f, hf, hfirst, htotal, hoffset⟩ := continues
      exact ⟨f, hcarries.fragment ▸ hf, hfirst, htotal, by simpa using hoffset⟩
    | succ i =>
      obtain ⟨f, hf, hfirst, htotal, hoffset⟩ := hoptions i q hi
      refine ⟨f, hf, hfirst, htotal, ?_⟩
      rw [List.take_succ_cons, List.map_cons, List.sum_cons]
      omega

/-- Slots that carry the fragments of an APDU hold it, from its byte `received` on. -/
theorem Fragments.of_carried {first : SeqNum} {total received : Nat} {slots : List Slot}
    {packets : List Packet} (h : List.Forall₂ Slot.Carries slots packets) (nonempty : slots ≠ [])
    (held : ∀ slot ∈ slots, slot.state.hasData)
    (full : received + (packets.map Packet.size).sum = total)
    (options : ∀ (i : Nat) (p : Packet), packets[i]? = some p → 0 < p.size ∧
      ∃ f, p.fragment = some f ∧ f.apduFirst = first ∧ f.totalLength.toNat = total ∧
        f.offset.toNat = received + ((packets.take i).map Packet.size).sum) :
    Fragments first total received slots := by
  induction h generalizing received with
  | nil => exact absurd rfl nonempty
  | @cons slot p slots packets hcarries hrest ih =>
    have here := held slot (List.mem_cons_self ..)
    obtain ⟨-, f, hf, hfirst, htotal, hoffset⟩ := options 0 p rfl
    have continues : slot.Continues first total received :=
      ⟨f, hcarries.fragment.trans hf, hfirst, htotal, by simpa using hoffset⟩
    rw [List.map_cons, List.sum_cons, ← Nat.add_assoc, ← hcarries.payloadSize] at full
    cases slots with
    | nil =>
      obtain rfl := List.forall₂_nil_left_iff.1 hrest
      exact .last here continues full
    | cons slot' slots =>
      obtain ⟨q, _, -, -, rfl⟩ := List.forall₂_cons_left_iff.1 hrest
      have short : received + slot.payloadSize < total := by
        have := (options 1 q rfl).1
        rw [List.map_cons, List.sum_cons] at full
        omega
      refine .more here continues short (ih (List.cons_ne_nil slot' slots)
        (fun s hs => held s (List.mem_cons_of_mem slot hs)) full fun i p' hi => ?_)
      obtain ⟨hpos, g, hg, hfirst, htotal, hoffset⟩ := options (i + 1) p' hi
      refine ⟨hpos, g, hg, hfirst, htotal, ?_⟩
      rw [hoffset, hcarries.payloadSize, List.take_succ_cons, List.map_cons, List.sum_cons]
      omega

namespace Window

variable {w : Window} {packets : List Packet} {m : Message}

/-- A message that the window holds is made up of the last packets of its numbers. -/
theorem HoldsMessage.reassembles (h : w.HoldsMessage m) (hl : w.HoldsLatest packets) :
    ∃ ps, Reassembles ps m ∧ ∀ (i : Nat) (p : Packet), ps[i]? = some p →
      latest packets (m.first + i) = some p ∧
        ∃ slot, w.slots.get? (m.first + i) = some slot ∧ slot.state = .haveData ∧
          slot.Carries p := by
  obtain ⟨apdu, hlength, whole, hheld, hpayload⟩ := h
  obtain ⟨ps, hall, hps⟩ := exists_carried (R := fun s p => latest packets s = some p) m.first
    fun k slot hk => hl _ slot (hheld k slot hk).1 (hheld k slot hk).2
  have hjoin : m.payload = joinPackets ps := hpayload.trans (joinSlots_eq_joinPackets hall)
  refine ⟨ps, ⟨hall.length_eq.symm.trans hlength, hlength ▸ whole.length_pos, ?_, hjoin, ?_⟩, ?_⟩
  · exact fun i p hi => (mem_of_latest (hps i p hi).1).2
  · cases whole with
    | single _ alone =>
      obtain ⟨p, rest, hcarries, hrest, rfl⟩ := List.forall₂_cons_left_iff.1 hall
      obtain rfl := List.forall₂_nil_left_iff.1 hrest
      exact .inl ⟨p, rfl, hcarries.fragment ▸ alone, hjoin.trans ByteArray.empty_append⟩
    | fragmented fragments =>
      obtain ⟨hsum, hoptions⟩ := fragments.carried hall
      simp only [Nat.zero_add] at hsum hoptions
      exact .inr ⟨_, hsum, hoptions⟩
  · intro i p hi
    obtain ⟨hlatest, slot, hslot, hcarries⟩ := hps i p hi
    exact ⟨hlatest, slot, (hheld i slot hslot).1, (hheld i slot hslot).2, hcarries⟩

theorem holdsLatest_of_empty (h : ∀ x, w.slots.get? x = none) (packets : List Packet) :
    w.HoldsLatest packets := by
  intro x slot hs
  rw [h] at hs
  cases hs

/-- The packets stored in a step are those of its notes. -/
theorem Tells.accepted_concat {ops : List Op} {op : Op} {notes : List Note}
    (ht : (w.run ops).Tells op ((w.run ops).step op).2 notes) :
    w.accepted (ops ++ [op]) = w.accepted ops ++ Note.packets notes := by
  rw [accepted_append, ht.packets]
  simp [accepted, record]

/-- What a window holds for delivery after a history was accepted in its course, if it held nothing
before. -/
theorem HoldsLatest.run (h : w.HoldsLatest []) (hsound : w.Sound) {ops : List Op}
    (live : (w.run ops).isGone = false) : (w.run ops).HoldsLatest (w.accepted (parts ops)) := by
  rw [← run_parts] at live ⊢
  refine (history_induction (motive := fun ops => (w.run ops).HoldsLatest (w.accepted ops))
    hsound h ?_ isPart_of_mem_parts live).2
  intro ops op notes hsound hmoves htells hlatest
  rw [htells.accepted_concat]
  exact hmoves.holdsLatest hsound hlatest

theorem holdsLatest_create (tsi : Tsi) (config : ValidConfig) : (create tsi config).HoldsLatest [] :=
  holdsLatest_of_empty (get?_create tsi config) []

/-- Every message that is read after a history is made up of packets that were accepted in its
course, the last ones of their numbers, and each of them was held in its slot until then. -/
theorem reassembles_of_mem_read (tsi : Tsi) (config : ValidConfig) (ops : List Op) (count : Nat)
    (m : Message) (hm : m ∈ (((create tsi config).run ops).read count).2.messages) :
    ∃ ps, Reassembles ps m ∧ ∀ (i : Nat) (p : Packet), ps[i]? = some p →
      latest ((create tsi config).accepted (parts ops)) (m.first + i) = some p ∧
        ∃ slot, ((create tsi config).run ops).slots.get? (m.first + i) = some slot ∧
          slot.state = .haveData ∧ slot.Carries p := by
  cases live : ((create tsi config).run ops).isGone with
  | true =>
    rw [read, whileLive, if_pos live] at hm
    exact absurd hm List.not_mem_nil
  | false =>
    rw [read, whileLive_of_live live] at hm
    obtain ⟨-, -, -, hholds⟩ := readReady_spec (sound_run (sound_create tsi config) live).1 count
    exact (hholds m hm).reassembles
      ((holdsLatest_create tsi config).run (sound_create tsi config) live)

/-- Two fragments that come in the wrong order, after a packet of their number was refused. -/
def reassemblyHistory : List Op :=
  [smallPush 4294967295 none 9, smallPush 1 (some ⟨0, 1, 2⟩) 2, smallPush 1 none 7,
    smallPush 0 (some ⟨0, 0, 2⟩) 1]

theorem reassembles_of_mem_read_small :
    ∃ ps, Reassembles ps ⟨0, 2, ⟨#[1, 2]⟩⟩ ∧ ∀ (i : Nat) (p : Packet), ps[i]? = some p →
      latest ((create smallTsi smallConfig).accepted (parts reassemblyHistory))
        ((0 : SeqNum) + i) = some p ∧
        ∃ slot, ((create smallTsi smallConfig).run reassemblyHistory).slots.get?
          ((0 : SeqNum) + i) = some slot ∧ slot.state = .haveData ∧ slot.Carries p := by
  have hread : (((create smallTsi smallConfig).run reassemblyHistory).read 2).2.messages =
      [⟨4294967295, 1, ⟨#[9]⟩⟩, ⟨0, 2, ⟨#[1, 2]⟩⟩] := by rfl
  exact reassembles_of_mem_read smallTsi smallConfig reassemblyHistory 2 ⟨0, 2, ⟨#[1, 2]⟩⟩
    (by rw [hread]; exact List.mem_cons_of_mem _ (List.mem_singleton_self _))

end Window

end ReliableMulticast
