import ReliableMulticast.Proofs.Stream

/-!
# Messages made of sent and of rebuilt packets

If a window is fed with the packets of a stream and with data that a decoder computed right, then
what it hands out are APDUs of the stream (`mem_messages_of_delivered`). The one exception is a
fragment that was rebuilt: a rebuilt packet has no fragment option, so a fragment of a longer APDU
is handed out as an APDU of its own.
-/

namespace ReliableMulticast

/-- What the operation takes in is the sender's: packets of the stream, or data computed from parity
that is the data of the stream's packets. -/
def Stream.Feeds (stream : Stream) : Window.Op → Prop
  | .push p _ => p ∈ stream.packets
  | .pushRepair p _ _ => p ∈ stream.packets
  | .repair g decode _ => ∀ s ∈ g.missing, ∀ payload, decode g s = .ok payload →
      ∃ p ∈ stream.packets, p.sequence = s ∧ p.payload = payload
  | _ => True

namespace Window

variable {w : Window}

/-! ### Answers of a history -/

/-- What is handed out in the course of a history is handed out by one of its reads. -/
theorem exists_read_of_mem_delivered {ops : List Op} {m : Message} (hm : m ∈ w.delivered ops) :
    ∃ before count after, ops = before ++ .read count :: after ∧
      m ∈ ((w.run before).read count).2.messages := by
  induction ops generalizing w with
  | nil => cases hm
  | cons op ops ih =>
    rw [delivered, record, List.flatMap_cons, List.mem_append] at hm
    rcases hm with hm | hm
    · cases op with
      | read count => exact ⟨[], count, ops, rfl, hm⟩
      | _ => cases hm
    · obtain ⟨before, count, after, rfl, hread⟩ := ih hm
      exact ⟨op :: before, count, after, rfl, hread⟩

/-- A packet that was accepted was taken in by an operation of the history. -/
theorem exists_push_of_mem_accepted {ops : List Op} {p : Packet} (hp : p ∈ w.accepted ops) :
    (∃ now, .push p now ∈ ops) ∨ ∃ source now, .pushRepair p source now ∈ ops := by
  induction ops generalizing w with
  | nil => cases hp
  | cons op ops ih =>
    rw [accepted, record, List.flatMap_cons, List.mem_append] at hp
    rcases hp with hp | hp
    · cases op with
      | push q now =>
        simp only [step, Prod.map, Op.accepted] at hp
        split at hp
        · obtain rfl := List.mem_singleton.1 hp
          exact .inl ⟨now, List.mem_cons_self ..⟩
        · cases hp
      | pushRepair q source now =>
        simp only [step, Prod.map, Op.accepted] at hp
        split at hp
        · obtain rfl := List.mem_singleton.1 hp
          exact .inr ⟨source, now, List.mem_cons_self ..⟩
        · cases hp
      | _ => cases hp
    · rcases ih hp with ⟨now, hmem⟩ | ⟨source, now, hmem⟩
      · exact .inl ⟨now, List.mem_cons_of_mem _ hmem⟩
      · exact .inr ⟨source, now, List.mem_cons_of_mem _ hmem⟩

/-- A message is made up of packets that were accepted before it was handed out. -/
theorem exists_packets_of_mem_delivered (h : w.Sound) (none_held : w.HoldsLatest []) {ops : List Op}
    {m : Message} (hm : m ∈ w.delivered ops) :
    ∃ before ps, before <+: ops ∧ Reassembles ps m ∧ ∀ p ∈ ps, p ∈ w.accepted (parts before) := by
  obtain ⟨before, count, after, rfl, hread⟩ := exists_read_of_mem_delivered hm
  cases live : (w.run before).isGone with
  | true =>
    rw [read, whileLive, if_pos live] at hread
    cases hread
  | false =>
    rw [read, whileLive_of_live live] at hread
    obtain ⟨-, -, -, hholds⟩ := readReady_spec (sound_run h live).1 count
    obtain ⟨ps, hreassembles, hps⟩ := (hholds m hread).reassembles (none_held.run h live)
    refine ⟨before, ps, List.prefix_append .., hreassembles, fun p hp => ?_⟩
    obtain ⟨i, hi⟩ := List.getElem?_of_mem hp
    exact (mem_of_latest (hps i p hi).1).1

/-! ### Rebuilt packets -/

/-- The operations computed the packet from parity. -/
def Rebuilds (ops : List Op) (p : Packet) : Prop :=
  ∃ g decode now, .repair g decode now ∈ ops ∧ p.sequence ∈ g.missing ∧
    decode g p.sequence = .ok p.payload

theorem Op.exists_of_mem_repairs {g : Group} {decode : Decoder} {now : Timestamp}
    {numbers : List SeqNum} {op : Op} (hop : op ∈ Op.repairs g decode now numbers) :
    ∃ s payload, s ∈ numbers ∧ decode g s = .ok payload ∧
      op = .pushRepair ⟨g.tsi, s, none, payload⟩ .parity now := by
  induction numbers with
  | nil => cases hop
  | cons s numbers ih =>
    rw [Op.repairs] at hop
    split at hop
    · cases hop
    next payload hdecode =>
      rcases List.mem_cons.1 hop with rfl | hop
      · exact ⟨s, payload, List.mem_cons_self .., hdecode, rfl⟩
      · obtain ⟨s', payload', hs', hdecode', he⟩ := ih hop
        exact ⟨s', payload', List.mem_cons_of_mem s hs', hdecode', he⟩

/-- A part of a history is one of its operations or takes in a packet that a repair computed. -/
theorem mem_or_repairs_of_mem_parts {ops : List Op} {op : Op} (hop : op ∈ parts ops) :
    op ∈ ops ∨ ∃ g decode now s payload, .repair g decode now ∈ ops ∧ s ∈ g.missing ∧
      decode g s = .ok payload ∧ op = .pushRepair ⟨g.tsi, s, none, payload⟩ .parity now := by
  obtain ⟨whole, hwhole, hpart⟩ := List.mem_flatMap.1 hop
  cases whole with
  | repair g decode now =>
    obtain ⟨s, payload, hs, hdecode, he⟩ := Op.exists_of_mem_repairs hpart
    exact .inr ⟨g, decode, now, s, payload, hwhole, hs, hdecode, he⟩
  | _ =>
    obtain rfl := List.mem_singleton.1 hpart
    exact .inl hwhole

/-- A packet that a window accepts is one of the stream, or it was rebuilt: then it has no fragment
option, and otherwise it is like the packet of its number. -/
theorem mem_packets_or_rebuilt {stream : Stream} {ops : List Op}
    (feeds : ∀ op ∈ ops, stream.Feeds op) {p : Packet} (hp : p ∈ w.accepted (parts ops)) :
    p ∈ stream.packets ∨ p.fragment = none ∧
      ∃ q ∈ stream.packets, q.sequence = p.sequence ∧ q.payload = p.payload ∧ Rebuilds ops q := by
  rcases exists_push_of_mem_accepted hp with ⟨now, hmem⟩ | ⟨source, now, hmem⟩
  · rcases mem_or_repairs_of_mem_parts hmem with hop | ⟨_, _, _, _, _, -, -, -, he⟩
    · exact .inl (feeds _ hop)
    · cases he
  · rcases mem_or_repairs_of_mem_parts hmem with hop | ⟨g, decode, _, s, _, hop, hs, hdecode, he⟩
    · exact .inl (feeds _ hop)
    · cases he
      obtain ⟨q, hq, rfl, rfl⟩ := feeds _ hop s hs _ hdecode
      exact .inr ⟨rfl, q, hq, rfl, rfl, g, decode, _, hop, hs, hdecode⟩

/-- Every message handed out is an APDU of the stream, with all its data, or one fragment of an APDU
that was rebuilt from parity and handed out alone. -/
theorem mem_messages_of_delivered (tsi : Tsi) (config : ValidConfig) (stream : Stream)
    (ops : List Op) (feeds : ∀ op ∈ ops, stream.Feeds op) (m : Message)
    (hm : m ∈ (create tsi config).delivered ops) :
    m ∈ stream.messages ∨ ∃ p ∈ stream.packets, p.fragment ≠ none ∧ Rebuilds ops p ∧
      m = ⟨p.sequence, 1, p.payload⟩ := by
  obtain ⟨before, ps, hbegins, hreassembles, hps⟩ :=
    exists_packets_of_mem_delivered (sound_create tsi config) (holdsLatest_create tsi config) hm
  obtain ⟨after, rfl⟩ := hbegins
  have horigin := fun p hp => mem_packets_or_rebuilt
    (fun op hop => feeds op (List.mem_append_left after hop)) (hps p hp)
  by_cases hall : ∀ p ∈ ps, p ∈ stream.packets
  · exact .inl (stream.mem_messages hreassembles hall)
  · -- A rebuilt packet has no fragment option, so the message is made of it alone.
    push Not at hall
    obtain ⟨p, hp, hnot⟩ := hall
    obtain ⟨alone, q, hq, hsequence, hpayload, g, decode, now, hop, hdecoded⟩ :=
      (horigin p hp).resolve_left hnot
    have hm : m = ⟨q.sequence, 1, q.payload⟩ := by
      rcases hreassembles.options with ⟨p', rfl, -, hdata⟩ | ⟨total, -, hoptions⟩
      · obtain rfl := List.mem_singleton.1 hp
        have hfirst : p.sequence = m.first := by simpa using hreassembles.sequence 0 p rfl
        have hlength : 1 = m.packets := hreassembles.length
        rw [hsequence, hpayload, hfirst, hlength, ← hdata]
      · obtain ⟨i, hi⟩ := List.getElem?_of_mem hp
        obtain ⟨f, hf, -⟩ := hoptions i p hi
        rw [alone] at hf
        cases hf
    cases hf : q.fragment with
    | none => exact .inl (hm ▸ Stream.mem_messages_of_alone hq hf)
    | some f =>
      refine .inr ⟨q, hq, by rw [hf]; exact Option.some_ne_none f, ?_, hm⟩
      exact ⟨g, decode, now, List.mem_append_left after hop, hdecoded⟩

/-- The group of the two fragments, of which the second is missing. -/
def rebuildGroup : Group := ⟨smallTsi, 0, [⟨0, some ⟨#[1]⟩⟩, ⟨1, none⟩], [⟨0, ⟨#[3]⟩⟩]⟩

/-- The packets of the small stream but the last one, and a parity packet for that. -/
def rebuildPushes : List Op :=
  [smallPush 4294967295 none 9, smallPush 0 (some ⟨0, 0, 2⟩) 1,
    .pushParity ⟨smallTsi, 0, none, ⟨#[3]⟩⟩ 0]

/-- The last packet is rebuilt, and all is read. -/
def rebuildHistory : List Op :=
  rebuildPushes ++ [.repair rebuildGroup (fun _ _ => .ok ⟨#[2]⟩) 0, .read 9]

theorem feeds_rebuildHistory : ∀ op ∈ rebuildHistory, smallStream.Feeds op := by
  intro op hop
  simp only [rebuildHistory, rebuildPushes, List.cons_append, List.nil_append, List.mem_cons,
    List.not_mem_nil, or_false] at hop
  rcases hop with rfl | rfl | rfl | rfl | rfl
  · exact List.mem_cons_self ..
  · exact List.mem_cons_of_mem _ (List.mem_cons_self ..)
  · trivial
  · intro s hs payload hdecode
    obtain rfl : s = 1 := List.mem_singleton.1 hs
    obtain rfl := Except.ok.inj hdecode
    exact ⟨_, List.mem_cons_of_mem _ (List.mem_cons_of_mem _ (List.mem_cons_self ..)), rfl, rfl⟩
  · trivial

theorem delivered_rebuildHistory : (create smallTsi smallConfig).delivered rebuildHistory =
    [⟨4294967295, 1, ⟨#[9]⟩⟩, ⟨1, 1, ⟨#[2]⟩⟩] := by rfl

theorem mem_messages_of_delivered_small :
    (∀ op ∈ rebuildHistory, smallStream.Feeds op) ∧
      ⟨1, 1, ⟨#[2]⟩⟩ ∈ (create smallTsi smallConfig).delivered rebuildHistory ∧
      ((⟨1, 1, ⟨#[2]⟩⟩ : Message) ∈ smallStream.messages ∨
        ∃ p ∈ smallStream.packets, p.fragment ≠ none ∧ Rebuilds rebuildHistory p ∧
          (⟨1, 1, ⟨#[2]⟩⟩ : Message) = ⟨p.sequence, 1, p.payload⟩) := by
  have hm : ⟨1, 1, ⟨#[2]⟩⟩ ∈ (create smallTsi smallConfig).delivered rebuildHistory := by
    rw [delivered_rebuildHistory]
    exact List.mem_cons_of_mem _ (List.mem_cons_self ..)
  exact ⟨feeds_rebuildHistory, hm, mem_messages_of_delivered smallTsi smallConfig smallStream
    rebuildHistory feeds_rebuildHistory _ hm⟩

/-- The group is the one that the window reported, all data is right, and still a fragment is handed
out that is no APDU of the stream, while the APDU it belongs to is lost. -/
theorem rebuilt_fragment_alone :
    (∃ r, (((create smallTsi smallConfig).run (rebuildPushes.take 2)).step
        (.pushParity ⟨smallTsi, 0, none, ⟨#[3]⟩⟩ 0)).2 = .receipt r ∧
        r.repairable = some rebuildGroup) ∧
      (∀ op ∈ rebuildHistory, smallStream.Feeds op) ∧
      (create smallTsi smallConfig).delivered rebuildHistory =
        [⟨4294967295, 1, ⟨#[9]⟩⟩, ⟨1, 1, ⟨#[2]⟩⟩] ∧
      (create smallTsi smallConfig).told rebuildHistory = 1 ∧
      (⟨1, 1, ⟨#[2]⟩⟩ : Message) ∉ smallStream.messages := by
  refine ⟨⟨_, rfl, rfl⟩, feeds_rebuildHistory, delivered_rebuildHistory, by decide +kernel,
    fun hm => ?_⟩
  have hfirst : (1 : SeqNum) ∈ smallStream.messages.map Message.first := List.mem_map_of_mem hm
  exact absurd hfirst (by decide)

end Window

end ReliableMulticast
