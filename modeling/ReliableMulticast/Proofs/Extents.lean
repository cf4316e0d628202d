import ReliableMulticast.Proofs.Completeness

/-!
# How far an APDU extends

Each number of a stream belongs to one APDU (`Stream.eq_of_spans`). A window that has all it knows
from the stream knows no fragment of another APDU where it looks for one: a loss spreads within the
APDU of its slot (`Fed.spans_of_takesAlong`), the scan of an APDU ends within it and never contradicts
itself (`Fed.scanApdu_spec`), and a settled stretch that ends inside an APDU begins inside it or has
one of its slots given up (`Fed.inside_of_settled`).
-/

namespace ReliableMulticast

namespace Message

/-- The number is one of the message's. -/
def Spans (m : Message) (x : SeqNum) : Prop := m.first.gap x < m.packets

/-- The number is one of the message's and not its first one. -/
def Inside (m : Message) (x : SeqNum) : Prop := 0 < m.first.gap x ∧ m.Spans x

end Message

namespace Stream

variable {stream : Stream} {config : ValidConfig} {m m' : Message} {x : SeqNum} {p : Packet}

theorem Fits.packets_le (h : stream.Fits config) (hm : m ∈ stream.messages) :
    m.packets ≤ 1073741824 := by
  obtain ⟨i, hi⟩ := List.getElem?_of_mem hm
  obtain ⟨-, apdu, hin, -, hlength⟩ := of_message hi
  exact hlength ▸ Nat.le_trans (h.apdu_le apdu hin) config.2.capacity_le

/-- Each number belongs to one APDU. -/
theorem eq_of_spans (hm : m ∈ stream.messages) (hm' : m' ∈ stream.messages) (hx : m.Spans x)
    (hx' : m'.Spans x) : m = m' := by
  have located : ∀ {m : Message} {i : Nat}, stream.messages[i]? = some m → m.Spans x →
      x = stream.start + (spanned (stream.messages.take i) + m.first.gap x) ∧
        spanned (stream.messages.take i) + m.first.gap x < 4294967296 := by
    intro m i hi hspans
    have hlength : stream.packets.length ≤ 4294967296 := stream.length_le
    have htake := spanned_take_add_le hi (Nat.lt_add_one i)
    have hle := stream.spanned_take_le (i + 1)
    unfold Message.Spans at hspans
    refine ⟨?_, by omega⟩
    rw [← SeqNum.add_add, ← (of_message hi).1, SeqNum.add_gap]
  obtain ⟨i, hi⟩ := List.getElem?_of_mem hm
  obtain ⟨j, hj⟩ := List.getElem?_of_mem hm'
  obtain ⟨hxi, hlt⟩ := located hi hx
  obtain ⟨hxj, hlt'⟩ := located hj hx'
  have hsame := (SeqNum.add_inj hlt hlt').1 (hxi.symm.trans hxj)
  unfold Message.Spans at hx hx'
  rcases Nat.lt_trichotomy i j with hij | rfl | hij
  · have := spanned_take_add_le hi hij
    omega
  · exact Option.some.inj (hi.symm.trans hj)
  · have := spanned_take_add_le hj hij
    omega

theorem spans_first (hm : m ∈ stream.messages) : m.Spans m.first := by
  obtain ⟨i, hi⟩ := List.getElem?_of_mem hm
  rw [Message.Spans, SeqNum.gap_self]
  exact stream.packets_pos hi

/-- No APDU goes on where another one ends. -/
theorem not_inside_end (h : stream.Fits config) (hm : m ∈ stream.messages)
    (hm' : m' ∈ stream.messages) : ¬ m.Inside (m'.first + m'.packets) := by
  rintro ⟨hpos, hspans⟩
  have hle := h.packets_le hm'
  have hpackets : 0 < m'.packets := by simpa [Message.Spans] using spans_first hm'
  have hend : (m'.first + (m'.packets - 1)).next = m'.first + m'.packets := by
    rw [SeqNum.add_next, Nat.sub_add_cancel hpackets]
  -- The last number before the end belongs to both.
  have hlast' : m'.Spans (m'.first + (m'.packets - 1)) := by
    rw [Message.Spans, SeqNum.gap_add _ (by omega)]
    omega
  have hlast : m.Spans (m'.first + (m'.packets - 1)) := by
    rw [← hend] at hpos hspans
    have := SeqNum.gap_add_one hpos
    unfold Message.Spans at *
    omega
  obtain rfl := eq_of_spans hm hm' hlast hlast'
  rw [Message.Spans, SeqNum.gap_add _ (by omega)] at hspans
  exact Nat.lt_irrefl _ hspans

/-- The fragment option of a packet names the APDU that the packet belongs to. -/
theorem exists_message (h : stream.Fits config) (hp : p ∈ stream.packets) {f : Fragment}
    (hf : p.fragment = some f) :
    ∃ apdu ∈ stream.apdus, IsApdu f.apduFirst apdu ∧ p ∈ apdu ∧
      ∃ m ∈ stream.messages, m.first = f.apduFirst ∧ m.packets = apdu.length ∧
        m.Spans p.sequence := by
  obtain ⟨first, apdu, hin, whole, hmem, hmessage⟩ := stream.tiles.exists_apdu hp
  obtain ⟨i, hi⟩ := List.getElem?_of_mem hmem
  obtain ⟨rfl, -⟩ := whole.of_fragment hi hf
  have hlt : i < apdu.length := (List.getElem?_eq_some_iff.1 hi).1
  have hle : apdu.length ≤ 1073741824 := Nat.le_trans (h.apdu_le apdu hin) config.2.capacity_le
  refine ⟨apdu, hin, whole, hmem, _, hmessage, rfl, rfl, ?_⟩
  rw [Message.Spans, whole.sequence hi, SeqNum.gap_add _ (by omega)]
  exact hlt

end Stream

/-! ### Scans -/

theorem ApduScan.succ_eq_lost_iff {scan : ApduScan} : scan.succ = .lost ↔ scan = .lost := by
  cases scan <;> simp [ApduScan.succ]

theorem ApduScan.succ_eq_malformed_iff {scan : ApduScan} :
    scan.succ = .malformed ↔ scan = .malformed := by
  cases scan <;> simp [ApduScan.succ]

/-- The scan of an APDU goes over a packet of it and is done if that was the last one. -/
theorem scanFragments_of_carries {first : SeqNum} {apdu : List Packet} {slot : Slot}
    (slots : List Slot) {i : Nat} {p : Packet} {f : Fragment} (hp : apdu[i]? = some p)
    (held : slot.state.hasData) (hcarries : slot.Carries p) (hf : p.fragment = some f)
    (hfirst : f.apduFirst = first) (htotal : f.totalLength.toNat = (apdu.map Packet.size).sum)
    (hoffset : f.offset.toNat = ((apdu.take i).map Packet.size).sum) :
    scanFragments first (apdu.map Packet.size).sum ((apdu.take i).map Packet.size).sum
        (slot :: slots) =
      if ((apdu.take (i + 1)).map Packet.size).sum = (apdu.map Packet.size).sum then .complete 1
      else (scanFragments first (apdu.map Packet.size).sum
        ((apdu.take (i + 1)).map Packet.size).sum slots).succ := by
  have hsum : ((apdu.take (i + 1)).map Packet.size).sum =
      ((apdu.take i).map Packet.size).sum + slot.payloadSize := by
    rw [List.take_add_one, hp, hcarries.payloadSize]
    simp
  have hle : ((apdu.take (i + 1)).map Packet.size).sum ≤ (apdu.map Packet.size).sum := by
    have := sum_take_add_le (l := apdu.map Packet.size) (i := i) (n := p.size)
      (by rw [List.getElem?_map, hp]; rfl)
    rw [hsum, hcarries.payloadSize, List.map_take]
    exact this
  rw [scanFragments_of_continues held ⟨f, hcarries.fragment.trans hf, hfirst, htotal, hoffset⟩, ← hsum,
    if_neg (Nat.not_lt.2 hle)]

/-- The scan of an APDU of which only true packets are held finds no contradiction, and what it finds
lost is one of the APDU's slots. -/
theorem scanFragments_of_apdu {first : SeqNum} {apdu : List Packet} {slots : List Slot} {i : Nat}
    (fragment : ∀ (k : Nat) (p : Packet), apdu[k]? = some p →
      ∃ f, p.fragment = some f ∧ f.apduFirst = first ∧
        f.totalLength.toNat = (apdu.map Packet.size).sum ∧
        f.offset.toNat = ((apdu.take k).map Packet.size).sum)
    (hi : i < apdu.length)
    (carried : ∀ (k : Nat) (slot : Slot), slots[k]? = some slot → i + k < apdu.length →
      slot.state.hasData → ∃ p, apdu[i + k]? = some p ∧ slot.Carries p) :
    let scan := scanFragments first (apdu.map Packet.size).sum
      ((apdu.take i).map Packet.size).sum slots
    scan ≠ .malformed ∧ (scan = .lost →
      ∃ (k : Nat) (slot : Slot), i + k < apdu.length ∧ slots[k]? = some slot ∧ slot.state = .lost) := by
  induction slots generalizing i with
  | nil => exact ⟨nofun, nofun⟩
  | cons slot slots ih =>
    intro scan
    by_cases hlost : slot.state = .lost
    · have hscan : scan = .lost := if_pos hlost
      rw [hscan]
      exact ⟨nofun, fun _ => ⟨0, slot, hi, rfl, hlost⟩⟩
    by_cases hpending : slot.state.repairPending
    · have hscan : scan = .incomplete := (if_neg hlost).trans (if_pos hpending)
      rw [hscan]
      exact ⟨nofun, nofun⟩
    have held := SlotState.hasData_iff.2 ⟨hlost, Bool.eq_false_iff.2 hpending⟩
    obtain ⟨p, hp, hcarries⟩ := carried 0 slot rfl hi held
    obtain ⟨f, hf, hfirst, htotal, hoffset⟩ := fragment i p hp
    have hscan : scan = _ :=
      scanFragments_of_carries slots hp held hcarries hf hfirst htotal hoffset
    by_cases hfull : ((apdu.take (i + 1)).map Packet.size).sum = (apdu.map Packet.size).sum
    · rw [hscan, if_pos hfull]
      exact ⟨nofun, nofun⟩
    have hnext : i + 1 < apdu.length := by
      by_contra hend
      exact hfull (by rw [List.take_of_length_le (by omega)])
    have later : ∀ (k : Nat) (other : Slot), slots[k]? = some other → i + 1 + k < apdu.length →
        other.state.hasData → ∃ q, apdu[i + 1 + k]? = some q ∧ other.Carries q := by
      intro k other hk hlt held
      rw [Nat.add_assoc, Nat.add_comm 1] at hlt ⊢
      exact carried (k + 1) other hk hlt held
    obtain ⟨hwell, hrest⟩ := ih hnext later
    rw [hscan, if_neg hfull, Ne, ApduScan.succ_eq_malformed_iff, ApduScan.succ_eq_lost_iff]
    refine ⟨hwell, fun hl => ?_⟩
    obtain ⟨k, other, hk, hother, hgone⟩ := hrest hl
    exact ⟨k + 1, other, by omega, hother, hgone⟩

namespace Window

variable {w w' : Window} {notes : List Note} {stream : Stream} {packets : List Packet} {s x : SeqNum}
  {slot : Slot} {f : Fragment} {m : Message}

/-! ### What a window knows -/

/-- A slot with a fragment option has that of a packet of its number, even if it was given up. -/
def Labelled (w : Window) (packets : List Packet) : Prop :=
  ∀ x slot f, w.slots.get? x = some slot → slot.fragment = some f →
    ∃ p ∈ packets, p.sequence = x ∧ p.fragment = some f

/-- A fragment option comes with a packet or was there before. -/
theorem Turns.fragment_cases {old new : Slot} (h : w.Turns w' x old notes new) :
    new.fragment = old.fragment ∨
      ∃ p ∈ Note.packets notes, p.sequence = x ∧ new.fragment = p.fragment := by
  cases h with
  | same => exact .inl rfl
  | fill p _ _ here => exact .inr ⟨p, List.mem_singleton_self p, here, rfl⟩
  | wait _ waits => exact .inl waits.fragment
  | lose | spoil | orphan => exact .inl old.fragment_lose
  | keep | commit => exact .inl rfl
  | retain => exact .inl old.fragment_retain
  | free => exact .inl old.fragment_dropPayload

theorem Move.labelled (hm : w.Move notes w') (hs : w.Sound) (h : w.Labelled packets)
    (stored : ∀ p ∈ Note.packets notes, p ∈ packets) : w'.Labelled packets := by
  intro x new f found hf
  rcases hm.slot_cases hs found with harises | ⟨old, hold, hturns⟩
  · cases harises with
    | placeholder => cases hf
    | packet p now here _ => exact ⟨p, stored p (List.mem_singleton_self p), here, hf⟩
  · rcases hturns.fragment_cases with hsame | ⟨p, hp, here, hfragment⟩
    · exact h x old f hold (hsame ▸ hf)
    · exact ⟨p, stored p hp, here, hfragment ▸ hf⟩

/-- All that the window knows of packets it has from the stream. -/
structure Fed (w : Window) (stream : Stream) : Prop where
  marked : w.Marked stream.packets
  labelled : w.Labelled stream.packets
  latest : ∃ packets, w.HoldsLatest packets ∧ ∀ p ∈ packets, p ∈ stream.packets

theorem fed_of_empty (empty : w.slots.size = 0) (stream : Stream) : w.Fed stream where
  marked := marked_of_empty empty _
  labelled := fun x _ _ found => by cases (get?_of_empty empty x).symm.trans found
  latest := ⟨[], holdsLatest_of_empty (get?_of_empty empty) [], nofun⟩

theorem Move.fed (hm : w.Move notes w') (hs : w.Sound) (h : w.Fed stream)
    (stored : ∀ p ∈ Note.packets notes, p ∈ stream.packets) : w'.Fed stream where
  marked := hm.marked hs h.marked stored
  labelled := hm.labelled hs h.labelled stored
  latest := by
    obtain ⟨packets, hlatest, hpackets⟩ := h.latest
    exact ⟨_, hm.holdsLatest hs hlatest, List.forall_mem_append.2 ⟨hpackets, stored⟩⟩

namespace Fed

/-- What is held for delivery is a packet of the stream. -/
theorem carries (h : w.Fed stream) (found : w.slots.get? x = some slot)
    (held : slot.state = .haveData) : ∃ p ∈ stream.packets, p.sequence = x ∧ slot.Carries p := by
  obtain ⟨packets, hlatest, hpackets⟩ := h.latest
  obtain ⟨p, hp, hcarries⟩ := hlatest x slot found held
  obtain ⟨hmem, hx⟩ := mem_of_latest hp
  exact ⟨p, hpackets p hmem, hx, hcarries⟩

/-- A message that the window holds is one of the stream. -/
theorem mem_messages (h : w.Fed stream) (held : w.HoldsMessage m) : m ∈ stream.messages := by
  obtain ⟨packets, hlatest, hpackets⟩ := h.latest
  obtain ⟨ps, hreassembles, hps⟩ := held.reassembles hlatest
  refine Stream.mem_messages hreassembles fun p hp => ?_
  obtain ⟨i, hi⟩ := List.getElem?_of_mem hp
  exact hpackets p (mem_of_latest (hps i p hi).1).1

/-- The fragment option of a slot names the APDU that its number belongs to. -/
theorem exists_message (h : w.Fed stream) (fits : stream.Fits w.config)
    (found : w.slots.get? x = some slot) (hf : slot.fragment = some f) :
    ∃ m ∈ stream.messages, m.first = f.apduFirst ∧ m.Spans x := by
  obtain ⟨p, hp, rfl, hfragment⟩ := h.labelled x slot f found hf
  obtain ⟨apdu, -, -, -, m, hm, hfirst, -, hspans⟩ := Stream.exists_message fits hp hfragment
  exact ⟨m, hm, hfirst, hspans⟩

/-! ### Losses -/

/-- A loss spreads within the APDU of its slot. -/
theorem spans_of_mem_spread (h : w.Fed stream) (hs : w.Sound) (fits : stream.Fits w.config)
    (ahead : w.Ahead s) (hm : m ∈ stream.messages) (hspans : m.Spans s)
    (hx : x ∈ w.spread m.first s) : m.Spans x := by
  have hpackets := fits.packets_le hm
  have hnext := hs.gap_next_le
  have hahead := ahead_spreadEnd m.first hs ahead
  have hend : m.Spans (w.spreadEnd m.first s) := by
    rcases w.spreadEnd_eq_or_mem m.first s with he | ⟨-, -, hfragment⟩
    · rw [he]
      exact hspans
    · obtain ⟨slot, found, hfirst⟩ := (Option.any_eq_true _ _).1 hfragment
      obtain ⟨f, hf, hfirst⟩ := (Option.any_eq_true _ _).1 hfirst
      obtain ⟨m', hm', hfirst', hspans'⟩ := h.exists_message fits found hf
      have hsame := Stream.spans_first hm'
      rw [hfirst', of_decide_eq_true hfirst] at hsame
      obtain rfl := Stream.eq_of_spans hm hm' (Stream.spans_first hm) hsame
      exact hspans'
  obtain ⟨hstart, hle⟩ := (mem_spread hs ahead).1 hx
  unfold Message.Spans Ahead at *
  unfold spreadStart at hstart
  split at hstart
  next hbefore =>
    have hback := (SeqNum.before_iff.1 hbefore).2
    rw [SeqNum.gap_trans (b := w.commitTrail) (by omega)] at hend ⊢
    omega
  next hbefore =>
    rw [SeqNum.gap_split (a := w.commitTrail) (Nat.le_trans hstart hle)] at hend
    rw [SeqNum.gap_split (a := w.commitTrail) hstart]
    omega

/-- A slot that is given up along with another one lies ahead too and belongs to the same APDU. -/
theorem spans_of_takesAlong (h : w.Fed stream) (hs : w.Sound) (fits : stream.Fits w.config)
    (ahead : w.Ahead s) (along : w.TakesAlong s x) :
    w.Ahead x ∧ (x = s ∨ ∃ m ∈ stream.messages, m.Spans s ∧ m.Spans x) := by
  rcases along with rfl | ⟨slot, f, -, found, hf, hx, -⟩
  · exact ⟨ahead, .inl rfl⟩
  · obtain ⟨m, hm, hfirst, hspans⟩ := h.exists_message fits found hf
    exact ⟨ahead_of_mem_spread hs ahead hx,
      .inr ⟨m, hm, hspans, h.spans_of_mem_spread hs fits ahead hm hspans (hfirst ▸ hx)⟩⟩

/-! ### The front -/

/-- The scan of the APDU at the front finds no contradiction, and what it finds lost is a slot of that
APDU. -/
theorem scanApdu_spec (h : w.Fed stream) (hs : w.Sound) (fits : stream.Fits w.config)
    (found : w.slots.get? w.commitLead = some slot) (held : slot.state = .haveData)
    (hf : slot.fragment = some f) (here : f.apduFirst = w.commitLead) :
    w.scanApdu w.commitLead f.totalLength.toNat ≠ .malformed ∧
      (w.scanApdu w.commitLead f.totalLength.toNat = .lost →
        ∃ m ∈ stream.messages, m.Spans w.commitLead ∧ ∃ x other, m.Spans x ∧ w.Ahead x ∧
          w.slots.get? x = some other ∧ other.state = .lost) := by
  have hlt := place_lt_of_get? found
  have inside : w.place w.commitLead + w.commitLead.gap w.next ≤ w.slots.size := by
    rw [hs.gap_commitLead]
    omega
  obtain ⟨p, hp, hsequence, hcarries⟩ := h.carries found held
  have hfragment : p.fragment = some f := hcarries.fragment ▸ hf
  obtain ⟨apdu, hin, whole, hmem, m, hm, hfirst, hpackets, hspans⟩ :=
    Stream.exists_message fits hp hfragment
  have hle := fits.packets_le hm
  rw [here] at whole hfirst
  cases whole with
  | single _ alone =>
    obtain rfl := List.mem_singleton.1 hmem
    rw [hfragment] at alone
    cases alone
  | fragmented nonempty fragment =>
    obtain ⟨i, hi⟩ := List.getElem?_of_mem hmem
    obtain ⟨-, -, g, hg, -, htotal, -⟩ := fragment i p hi
    obtain rfl := Option.some.inj (hfragment.symm.trans hg)
    have carried : ∀ (k : Nat) (other : Slot),
        (w.slots.slice w.commitLead (w.commitLead.gap w.next))[k]? = some other →
          0 + k < apdu.length → other.state.hasData → ∃ q, apdu[0 + k]? = some q ∧ other.Carries q := by
      intro k other hk hklt hdata
      obtain ⟨-, hother, -, hdelivered⟩ := hs.of_mem_front inside hk
      obtain ⟨q, hq, hqs, hqc⟩ := h.carries hother (SlotState.eq_haveData hdata hdelivered)
      rw [Nat.zero_add] at hklt ⊢
      obtain ⟨r, hr⟩ : ∃ r, apdu[k]? = some r := ⟨_, List.getElem?_eq_getElem hklt⟩
      have hrmem : r ∈ stream.packets := List.mem_flatten.2 ⟨apdu, hin, List.mem_of_getElem? hr⟩
      obtain rfl := Stream.eq_of_sequence_eq hq hrmem (hqs.trans (fragment k r hr).1.symm)
      exact ⟨q, hr, hqc⟩
    obtain ⟨hwell, hlost⟩ := scanFragments_of_apdu (fun k q hk => (fragment k q hk).2.2)
      (List.length_pos_iff.2 nonempty) carried
    rw [scanApdu, slotsFrom_eq_slice (contains_iff_place.2 hlt), htotal]
    refine ⟨hwell, fun hl => ?_⟩
    obtain ⟨k, other, hk, hslot, hgone⟩ := hlost hl
    obtain ⟨-, hother, hahead, -⟩ := hs.of_mem_front inside hslot
    refine ⟨m, hm, hsequence ▸ hspans, _, other, ?_, hahead, hother, hgone⟩
    rw [Message.Spans, hfirst, SeqNum.gap_add _ (by omega)]
    omega

/-- A settled stretch ahead of the reader ends inside an APDU only if it begins inside it or holds a
lost slot of it. -/
theorem inside_of_settled (h : w.Fed stream) (fits : stream.Fits w.config) {slots : List Slot}
    (settled : Settled s slots)
    (undelivered : ∀ (k : Nat) (slot : Slot), slots[k]? = some slot →
      w.slots.get? (s + k) = some slot ∧ slot.state.delivered = false)
    (hm : m ∈ stream.messages) (hend : m.Inside (s + slots.length)) :
    m.Inside s ∨ ∃ (k : Nat) (slot : Slot), slots[k]? = some slot ∧ slot.state = .lost ∧
      m.Spans (s + k) := by
  induction settled with
  | nil => exact .inl (by rwa [List.length_nil, SeqNum.add_zero] at hend)
  | @lost s slot rest lost _ ih =>
    rw [List.length_cons, ← SeqNum.next_add] at hend
    rcases ih (fun k other hk => by
      rw [SeqNum.next_add]
      exact undelivered (k + 1) other hk) hend with hnext | ⟨k, other, hk, hlost, hspans⟩
    · refine .inr ⟨0, slot, rfl, lost, ?_⟩
      have := SeqNum.gap_add_one hnext.1
      have := hnext.2
      rw [SeqNum.add_zero]
      unfold Message.Spans at *
      omega
    · exact .inr ⟨k + 1, other, hk, hlost, by rwa [← SeqNum.next_add]⟩
  | @apdu s apdu rest whole _ ih =>
    rw [List.length_append, ← SeqNum.add_add] at hend
    have held : w.HoldsMessage ⟨s, apdu.length, joinSlots apdu⟩ := by
      refine ⟨apdu, rfl, whole, fun k slot hk => ?_, rfl⟩
      have hlt : k < apdu.length := (List.getElem?_eq_some_iff.1 hk).1
      obtain ⟨found, hdelivered⟩ := undelivered k slot (by rwa [List.getElem?_append_left hlt])
      exact ⟨found, SlotState.eq_haveData (whole.hasData slot (List.mem_of_getElem? hk)) hdelivered⟩
    rcases ih (fun k other hk => by
      rw [SeqNum.add_add]
      refine undelivered (apdu.length + k) other ?_
      rwa [List.getElem?_append_right (Nat.le_add_right ..), Nat.add_sub_cancel_left]) hend
      with hnext | ⟨k, other, hk, hlost, hspans⟩
    · have hends := Stream.not_inside_end fits hm (h.mem_messages held)
      exact absurd hnext hends
    · refine .inr ⟨apdu.length + k, other, ?_, hlost, by rwa [← SeqNum.add_add]⟩
      rwa [List.getElem?_append_right (Nat.le_add_right ..), Nat.add_sub_cancel_left]

end Fed

/-! ### Packets counted malformed -/

theorem malformed_loseApdu (w : Window) (s : SeqNum) :
    (w.loseApdu s).counters.malformed = w.counters.malformed := by
  obtain ⟨n, hn⟩ := w.counters_loseApdu s
  rw [hn]
  rfl

/-- No APDU of the stream is found malformed at the front, so only what is refused is counted. -/
theorem Move.malformed_eq (hm : w.Move notes w') (hs : w.Sound) (fed : w.Fed stream)
    (fits : stream.Fits w.config) :
    w'.counters.malformed = w.counters.malformed + Note.refusals notes := by
  cases hm with
  | aside _ _ _ malformed => exact malformed
  | fill p source now => exact (losses_fillSlot ..).2
  | lose s => exact w.malformed_loseApdu s
  | collapse => exact w.malformed_loseApdu w.commitLead
  | garble found held fragment here broken =>
    exact absurd broken (fed.scanApdu_spec hs fits found held fragment here).1
  | orphan =>
    obtain ⟨n, hn⟩ := w.counters_giveUpSlot w.commitLead
    rw [hn]
    rfl
  | reclaim => exact congrArg Counters.malformed w.counters_dropTrail
  | overrun front nonempty =>
    obtain ⟨slot, slots, hpop⟩ := Sound.exists_popTrail? nonempty
    rw [Sound.evictTrail_of_front front hpop]
    rfl
  | skip target _ empty ahead =>
    rw [hs.skip_eq empty ahead]
    rfl
  | refuse | regroup | define | addPlaceholder | addPacket | wait | keep | pass | passLost | deliver
  | report | retain | free => rfl

end Window

end ReliableMulticast
