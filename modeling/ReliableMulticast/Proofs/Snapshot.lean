import ReliableMulticast.Proofs.Noticing

/-!
# Reported groups are true copies

A decoder works on a copy of what the window holds of a group, so a parity packet in the wrong group
or data in the wrong member would make it compute data that was never sent. Neither can happen. A
slot keeps a parity packet of its own group, whatever becomes of the slot, as the group size does not
change while parity is kept (`ParityFrom`); the data of a slot is that of the last packet accepted
for its number, also after it was delivered (`Stocks`); and a reported group shows just that
(`reported_shows`).
-/

namespace ReliableMulticast.Window

variable {w w' : Window} {notes : List Note} {packets : List Packet} {s x : SeqNum} {g : Group}

/-! ### Where parity comes from -/

/-- Every parity packet in a slot is one of the packets, and the slot is in that packet's group. -/
def ParityFrom (w : Window) (packets : List Packet) : Prop :=
  ∀ x, ∀ q ∈ w.parityAt? x, ∃ p ∈ packets, x ∈ w.groupNumbers p.sequence ∧
    q.index.toNat = p.sequence.raw.toNat % w.groupSize ∧ q.payload = p.payload

theorem parityFrom_of_empty (empty : ∀ x, w.slots.get? x = none) (packets : List Packet) :
    w.ParityFrom packets := by
  intro x q hq
  simp [parityAt?, empty] at hq

theorem Move.parityFrom (hm : w.Move notes w') (hs : w.Sound) (h : w.ParityFrom packets) :
    w'.ParityFrom (packets ++ Note.parities notes) := by
  intro x q hq
  rcases hm.parityAt?_cases hs hq with hold | ⟨p, rfl, hmem, rfl, -⟩
  · have same := hm.groupSize_eq (.inl (holdsGroupData_of_parityAt? hold))
    obtain ⟨p, hp, hmem, hq⟩ := h x q hold
    exact ⟨p, List.mem_append_left _ hp, by rwa [groupNumbers_of_groupSize_eq same], same ▸ hq⟩
  · have same : w'.groupSize = w.groupSize := congrArg Frame.groupSize hm.whole_of_kept.1
    refine ⟨p, List.mem_append_right _ (List.mem_singleton_self p),
      by rwa [groupNumbers_of_groupSize_eq same], ?_, rfl⟩
    -- An index is not greater than the number it comes from, so it is stored without being cut off.
    have hindex := Nat.lt_of_le_of_lt (Nat.mod_le p.sequence.raw.toNat w.groupSize) p.sequence.toNat_lt
    rw [same]
    exact UInt32.toNat_ofNat_of_lt' hindex

theorem Moves.parityFrom (hm : w.Moves notes w') (hs : w.Sound) (h : w.ParityFrom packets) :
    w'.ParityFrom (packets ++ Note.parities notes) := by
  induction hm generalizing packets with
  | done =>
    rw [show Note.parities [] = [] from rfl, List.append_nil]
    exact h
  | next first _ ih =>
    rw [Note.parities_append, ← List.append_assoc]
    exact ih (first.sound hs) (first.parityFrom hs h)

/-- The parity packets kept in the course of a history. -/
def kept (w : Window) (ops : List Op) : List Packet :=
  (w.record ops).flatMap fun entry => entry.1.kept entry.2

/-- The parity packets kept in a step are those of its notes. -/
theorem Tells.kept_concat {ops : List Op} {op : Op}
    (ht : (w.run ops).Tells op ((w.run ops).step op).2 notes) :
    w.kept (ops ++ [op]) = w.kept ops ++ Note.parities notes := by
  rw [kept, record_append, List.flatMap_append, ht.parities, kept]
  simp [record]

/-- After any history a window keeps parity that was kept in its course, each packet in its group. -/
theorem parityFrom_run (tsi : Tsi) (config : ValidConfig) (ops : List Op) :
    ((create tsi config).run ops).ParityFrom ((create tsi config).kept (parts ops)) := by
  cases live : ((create tsi config).run ops).isGone with
  | true => exact parityFrom_of_empty (get?_of_gone tsi config live) _
  | false =>
    rw [← run_parts] at live ⊢
    refine (history_induction (motive := fun ops =>
      ((create tsi config).run ops).ParityFrom ((create tsi config).kept ops))
      (sound_create tsi config) (parityFrom_of_empty (get?_create tsi config) []) ?_
      isPart_of_mem_parts live).2
    intro ops op notes hsound hmoves htells hfrom
    rw [htells.kept_concat]
    exact hmoves.parityFrom hsound hfrom

/-! ### Where data comes from -/

/-- The data of a slot, delivered or not, is that of the last packet of its number. -/
def Stocks (w : Window) (packets : List Packet) : Prop :=
  ∀ x slot, w.slots.get? x = some slot → slot.state.hasData → ∀ bytes ∈ slot.payload,
    ∃ p, latest packets x = some p ∧ p.payload = bytes

theorem Move.stocks (hm : w.Move notes w') (hs : w.Sound) (h : w.Stocks packets) :
    w'.Stocks (packets ++ Note.packets notes) := by
  intro x new found held bytes hbytes
  rcases hm.data_cases hs found held with ⟨p, rfl, rfl, carries⟩ | ⟨hne, old, hold, keeps⟩
  · exact ⟨p, latest_concat_self packets p, Option.some.inj (carries.payload.symm.trans hbytes)⟩
  · rw [latest_append_of_ne packets hne]
    exact h x old hold keeps.hasData bytes (keeps.payload bytes hbytes)

theorem Moves.stocks (hm : w.Moves notes w') (hs : w.Sound) (h : w.Stocks packets) :
    w'.Stocks (packets ++ Note.packets notes) := by
  induction hm generalizing packets with
  | done =>
    rw [show Note.packets [] = [] from rfl, List.append_nil]
    exact h
  | next first _ ih =>
    rw [Note.packets_append, ← List.append_assoc]
    exact ih (first.sound hs) (first.stocks hs h)

theorem stocks_create (tsi : Tsi) (config : ValidConfig) : (create tsi config).Stocks [] := by
  intro x slot found
  cases (get?_create tsi config x).symm.trans found

theorem Stocks.run (h : w.Stocks []) (hs : w.Sound) {ops : List Op}
    (live : (w.run ops).isGone = false) : (w.run ops).Stocks (w.accepted (parts ops)) := by
  rw [← run_parts] at live ⊢
  refine (history_induction (motive := fun ops => (w.run ops).Stocks (w.accepted ops)) hs h ?_
    isPart_of_mem_parts live).2
  intro ops op notes hsound hmoves htells hstocks
  rw [htells.accepted_concat]
  exact hmoves.stocks hsound hstocks

/-! ### What a group shows -/

/-- A member shows data if its slot has some, and no other. -/
theorem payload_member {slot : Slot} (usable : slot.isUsable) :
    (slot.member.payload.isSome ↔ slot.state.hasData) ∧
      ∀ bytes ∈ slot.member.payload, slot.state.hasData ∧ slot.payload = some bytes := by
  have stocked := (Slot.isUsable_iff.1 usable).2
  unfold Slot.member
  cases held : slot.state.hasData with
  | true => exact ⟨iff_of_true (stocked held) rfl, fun _ hb => ⟨rfl, hb⟩⟩
  | false => exact ⟨iff_of_false nofun nofun, nofun⟩

/-- The group is a true copy of a transmission group of the window, with the data of the packets. -/
structure Shows (w : Window) (packets : List Packet) (g : Group) : Prop where
  tsi : g.tsi = w.tsi
  aligned : w.groupSize ∣ g.first.raw.toNat
  numbers : g.members.map (·.sequence) = g.first.run w.groupSize
  /-- Each member is in the window and not lost, and it shows the data of its slot if there is any. -/
  members : ∀ m ∈ g.members, ∃ slot, w.slots.get? m.sequence = some slot ∧ slot.state ≠ .lost ∧
    (m.payload.isSome ↔ slot.state.hasData) ∧
    ∀ bytes ∈ m.payload, slot.payload = some bytes ∧
      ∃ p, latest packets m.sequence = some p ∧ p.payload = bytes
  missing : g.missing ≠ []
  parity : g.parity.Perm ((g.first.run w.groupSize).filterMap w.parityAt?)
  sorted : g.parity.Pairwise fun p q => p.index ≤ q.index

theorem Stocks.shows (h : w.Stocks packets) (hg : w.repairableGroup? s = some g) :
    w.Shows packets g := by
  obtain ⟨hmissing, -, hperm⟩ := repairableGroup?_spec hg
  have hnumbers := numbers_of_repairable hg
  obtain ⟨hrecover, rfl⟩ := repairableGroup?_eq_some_iff.1 hg
  refine ⟨rfl, ?_, hnumbers, fun m hm => ?_, List.ne_nil_of_length_pos hmissing, hperm,
    ParityPacket.pairwise_sort _⟩
  · exact toNat_groupFirst w s ▸ Nat.dvd_mul_right ..
  · obtain ⟨x, hx, slot, found, rfl⟩ := mem_members_groupAt.1 hm
    obtain ⟨slot', found', usable⟩ := hrecover.usable x hx
    obtain rfl := Option.some.inj (found.symm.trans found')
    obtain rfl := SlotRing.sequence_of_get? found
    obtain ⟨hsome, hdata⟩ := payload_member usable
    refine ⟨slot, found, (Slot.isUsable_iff.1 usable).1, hsome, fun bytes hbytes => ?_⟩
    obtain ⟨held, hpayload⟩ := hdata bytes hbytes
    exact ⟨hpayload, h _ slot found held bytes hpayload⟩

/-- After any history the slots keep parity packets that were kept in its course, each in its own
group and under its index there, and whatever group an operation reports is a true copy: its members
are the numbers of the group, all in the window and not lost, with the data that was last accepted
for them where it arrived, and its parity is what their slots keep, by index. -/
theorem reported_shows (tsi : Tsi) (config : ValidConfig) (ops : List Op) :
    ((create tsi config).run ops).ParityFrom ((create tsi config).kept (parts ops)) ∧
      ∀ (op : Op) (g : Group), (((create tsi config).run ops).step op).2.reported = some g →
        (((create tsi config).run ops).step op).1.Shows
          ((create tsi config).accepted (parts ops ++ [op])) g := by
  refine ⟨parityFrom_run tsi config ops, fun op g reported => ?_⟩
  obtain ⟨live, part, stays, s, hgroup⟩ := exists_of_reported reported
  obtain ⟨_, hmoves, -⟩ :=
    step_spec_of_ne (sound_run (sound_create tsi config) live).1 live part stays
  have still : ((create tsi config).run (ops ++ [op])).isGone = false := by
    rw [run_concat]
    exact hmoves.keeps.isGone.trans live
  have hparts : parts (ops ++ [op]) = parts ops ++ [op] := by
    rw [parts_append, parts, parts, List.flatMap_singleton, Op.parts_of_isPart part]
  have hstocks := (stocks_create tsi config).run (sound_create tsi config) still
  rw [run_concat, hparts] at hstocks
  exact hstocks.shows hgroup

/-- A report that cannot change the group size, as parity is kept. -/
def keptGroupSize : List Op := [smallParity 0, .updateStatus 0 1 4 2 0]

/-- The first packet of a group comes after its parity packet, which stays in the packet's slot. -/
theorem reported_shows_small :
    let w := (create smallTsi smallConfig).run keptGroupSize
    let (after, answer) := w.step (smallPush 0 none 1)
    w.groupSize = 2 ∧
    ∃ g, answer.reported = some g ∧
      g.members.map (·.payload.isSome) = [true, false] ∧ g.parity.map (·.index) = [0] ∧
      w.ParityFrom ((create smallTsi smallConfig).kept (parts keptGroupSize)) ∧
      after.Shows ((create smallTsi smallConfig).accepted (parts keptGroupSize ++ [smallPush 0 none 1]))
        g := by
  obtain ⟨g, hg, hmembers, hparity⟩ : ∃ g, (((create smallTsi smallConfig).run keptGroupSize).step
      (smallPush 0 none 1)).2.reported = some g ∧
        g.members.map (·.payload.isSome) = [true, false] ∧ g.parity.map (·.index) = [0] :=
    ⟨_, by rfl, by rfl, by rfl⟩
  obtain ⟨hfrom, hshows⟩ := reported_shows smallTsi smallConfig keptGroupSize
  exact ⟨by rfl, g, hg, hmembers, hparity, hfrom, hshows _ g hg⟩

end ReliableMulticast.Window
